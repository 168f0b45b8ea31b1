import Mathlib.Data.List.Induction
import Lalr.Item.Basic
import Lalr.Proofs.DefinedGrammar

/-!
Items that are valid for a prefix, and the terminals under which they are.  These relations speak of
the grammar alone; states and their lookaheads are measured by them.
-/

namespace Lalr

/-- The core with the mark moved over the next symbol. -/
def ItemCore.advance (c : ItemCore) : ItemCore :=
  ⟨c.production, c.dot + 1⟩

namespace Grammar

/-- The symbols behind the mark. -/
def after (g : Grammar) (c : ItemCore) : List Symbol :=
  (g.production? c.production).elim [] fun p => p.symbols.drop c.dot

/-- An item is valid for a prefix if it can be reached from the start item by predicting productions
of the nonterminal behind the mark and by moving the mark over the symbols of the prefix. -/
inductive ValidItem (g : Grammar) : List Symbol → ItemCore → Prop
  | start : ValidItem g [] ⟨.start, 0⟩
  | predict {prefixed rest rhs : List Symbol} {c : ItemCore} {n : NonterminalId}
      {p : ProductionId} (h : ValidItem g prefixed c) (hc : g.after c = .nonterminal n :: rest)
      (hp : g.HasRule p n rhs) : ValidItem g prefixed ⟨p, 0⟩
  | advance {prefixed rest : List Symbol} {c : ItemCore} {symbol : Symbol}
      (h : ValidItem g prefixed c) (hc : g.after c = symbol :: rest) :
      ValidItem g (prefixed ++ [symbol]) c.advance

/-- A valid item with a terminal that can follow its production there.  The terminal comes from what
stands behind the predicted nonterminal, or from the predicting item if all of that can vanish. -/
inductive ValidLookahead (g : Grammar) : List Symbol → ItemCore → TerminalId → Prop
  | start : ValidLookahead g [] ⟨.start, 0⟩ .eof
  | begins {prefixed rest rhs : List Symbol} {c : ItemCore} {n : NonterminalId}
      {p : ProductionId} {t : TerminalId} (h : g.ValidItem prefixed c)
      (hc : g.after c = .nonterminal n :: rest) (hp : g.HasRule p n rhs)
      (ht : g.Begins rest t) : ValidLookahead g prefixed ⟨p, 0⟩ t
  | passes {prefixed rest rhs : List Symbol} {c : ItemCore} {n : NonterminalId}
      {p : ProductionId} {t : TerminalId} (h : ValidLookahead g prefixed c t)
      (hc : g.after c = .nonterminal n :: rest) (hp : g.HasRule p n rhs)
      (hv : g.Vanishes rest) : ValidLookahead g prefixed ⟨p, 0⟩ t
  | advance {prefixed rest : List Symbol} {c : ItemCore} {symbol : Symbol} {t : TerminalId}
      (h : ValidLookahead g prefixed c t) (hc : g.after c = symbol :: rest) :
      ValidLookahead g (prefixed ++ [symbol]) c.advance t

variable {g : Grammar}

theorem HasRule.after {p : ProductionId} {n : NonterminalId} {rhs : List Symbol}
    (h : g.HasRule p n rhs) (dot : Nat) : g.after ⟨p, dot⟩ = rhs.drop dot := by
  obtain ⟨production, hp, -, rfl⟩ := h
  simp [Grammar.after, hp]

theorem after_advance {c : ItemCore} {symbol : Symbol} {rest : List Symbol}
    (h : g.after c = symbol :: rest) : g.after c.advance = rest := by
  unfold after at h ⊢
  cases hp : g.production? c.production with
  | none => simp [hp] at h
  | some p =>
      simp only [hp, Option.elim_some] at h
      change (g.production? c.production).elim [] (fun p => p.symbols.drop (c.dot + 1)) = rest
      rw [hp, Option.elim_some, ← List.tail_drop, h, List.tail_cons]

theorem symbolAfterDot_eq_ok {c : ItemCore} {next : Option Symbol}
    (h : c.symbolAfterDot g = .ok next) : next = (g.after c).head? := by
  unfold ItemCore.symbolAfterDot at h
  split at h
  · cases h
  · rename_i p hp
    cases h
    simp only [after, hp, Option.elim_some, Rule.symbolAt, Rule.symbols, List.head?_drop]
    simp

theorem symbolAfterDot_eq {c : ItemCore} (h : (g.production? c.production).isSome) :
    c.symbolAfterDot g = .ok (g.after c).head? := by
  obtain ⟨p, hp⟩ := Option.isSome_iff_exists.mp h
  have hnext : c.symbolAfterDot g = .ok (p.symbolAt c.dot) := by
    rw [ItemCore.symbolAfterDot, hp]
  rw [hnext, symbolAfterDot_eq_ok hnext]

theorem atEnd_eq_ok {c : ItemCore} {ended : Bool} (h : c.atEnd g = .ok ended) :
    ended = true ↔ g.after c = [] := by
  unfold ItemCore.atEnd at h
  split at h
  · cases h
  · rename_i p hp
    cases h
    rw [after, hp, Option.elim_some, List.drop_eq_nil_iff, decide_eq_true_eq, Rule.length,
      Rule.symbols, List.length_map, Array.length_toList]

theorem exists_atEnd {c : ItemCore} (h : (g.production? c.production).isSome) :
    ∃ ended, c.atEnd g = .ok ended := by
  obtain ⟨p, hp⟩ := Option.isSome_iff_exists.mp h
  rw [ItemCore.atEnd, hp]
  exact ⟨_, rfl⟩

theorem atEnd_iff {c : ItemCore} (h : (g.production? c.production).isSome) :
    c.atEnd g = .ok true ↔ g.after c = [] := by
  obtain ⟨ended, hended⟩ := exists_atEnd h
  rw [← atEnd_eq_ok hended, hended, Except.ok.injEq]

theorem hasRule_of_after {c : ItemCore} {symbol : Symbol} {rest : List Symbol}
    (h : g.after c = symbol :: rest) :
    ∃ n rhs, g.HasRule c.production n rhs ∧ rhs.drop c.dot = symbol :: rest := by
  unfold after at h
  cases hp : g.production? c.production with
  | none => simp [hp] at h
  | some p =>
      simp only [hp, Option.elim_some] at h
      exact ⟨p.lhs, p.symbols, ⟨p, hp, rfl, rfl⟩, h⟩

theorem ValidLookahead.validItem {prefixed : List Symbol} {c : ItemCore} {t : TerminalId}
    (h : g.ValidLookahead prefixed c t) : g.ValidItem prefixed c := by
  induction h with
  | start => exact .start
  | begins h hc hp _ => exact .predict h hc hp
  | passes _ hc hp _ ih => exact .predict ih hc hp
  | advance _ hc ih => exact .advance ih hc

/-- The part of a right side before the mark of a valid item ends the prefix, and before it the
production was predicted. -/
theorem ValidItem.split (hg : g.WellFormed) {prefixed : List Symbol} {c : ItemCore}
    (h : g.ValidItem prefixed c) :
    ∃ n rhs front, g.HasRule c.production n rhs ∧ c.dot ≤ rhs.length ∧
      prefixed = front ++ rhs.take c.dot ∧ g.ValidItem front ⟨c.production, 0⟩ := by
  induction h with
  | start => exact ⟨_, _, [], hg.start_rule, Nat.zero_le _, by simp, .start⟩
  | @predict prefixed rest rhs c n p h hc hp _ =>
      exact ⟨n, rhs, prefixed, hp, Nat.zero_le _, by simp, .predict h hc hp⟩
  | @advance prefixed rest c symbol _ hc ih =>
      obtain ⟨n, rhs, front, hrule, -, rfl, hfront⟩ := ih
      obtain ⟨n', rhs', hrule', hdrop⟩ := hasRule_of_after hc
      obtain ⟨rfl, rfl⟩ := hrule.unique hrule'
      have hget : rhs[c.dot]? = some symbol := by
        rw [← List.head?_drop, hdrop, List.head?_cons]
      refine ⟨n, rhs, front, hrule, ?_, ?_, hfront⟩
      · exact (List.getElem?_eq_some_iff.mp hget).1
      · change _ = front ++ rhs.take (c.dot + 1)
        rw [List.take_add_one, hget, Option.toList_some, List.append_assoc]

theorem ValidItem.production_isSome (hg : g.WellFormed) {prefixed : List Symbol} {c : ItemCore}
    (h : g.ValidItem prefixed c) : (g.production? c.production).isSome := by
  obtain ⟨n, rhs, -, ⟨production, hp, -⟩, -⟩ := h.split hg
  exact Option.isSome_iff_exists.mpr ⟨production, hp⟩

theorem ValidItem.predicted {prefixed : List Symbol} {p : ProductionId} (hp : p ≠ .start)
    (h : g.ValidItem prefixed ⟨p, 0⟩) :
    ∃ c n rest rhs, g.ValidItem prefixed c ∧ g.after c = .nonterminal n :: rest ∧
      g.HasRule p n rhs := by
  cases h with
  | start => exact absurd rfl hp
  | predict h hc hrule => exact ⟨_, _, _, _, h, hc, hrule⟩

theorem ValidItem.advance_front {prefixed rhs : List Symbol} {p : ProductionId}
    {n : NonterminalId} (hrule : g.HasRule p n rhs) (h : g.ValidItem prefixed ⟨p, 0⟩) {dot : Nat}
    (hdot : dot ≤ rhs.length) : g.ValidItem (prefixed ++ rhs.take dot) ⟨p, dot⟩ := by
  induction dot with
  | zero => simpa using h
  | succ dot ih =>
      have hafter : g.after ⟨p, dot⟩ = rhs[dot] :: rhs.drop (dot + 1) := by
        rw [hrule.after, List.drop_eq_getElem_cons]
      have := ValidItem.advance (ih (by omega)) hafter
      rwa [List.append_assoc, List.take_append_getElem (by omega)] at this

theorem ValidLookahead.advance_front {prefixed rhs : List Symbol} {p : ProductionId}
    {n : NonterminalId} {t : TerminalId} (hrule : g.HasRule p n rhs)
    (h : g.ValidLookahead prefixed ⟨p, 0⟩ t) {dot : Nat} (hdot : dot ≤ rhs.length) :
    g.ValidLookahead (prefixed ++ rhs.take dot) ⟨p, dot⟩ t := by
  induction dot with
  | zero => simpa using h
  | succ dot ih =>
      have hafter : g.after ⟨p, dot⟩ = rhs[dot] :: rhs.drop (dot + 1) := by
        rw [hrule.after, List.drop_eq_getElem_cons]
      have := ValidLookahead.advance (ih (by omega)) hafter
      rwa [List.append_assoc, List.take_append_getElem (by omega)] at this

theorem ValidItem.retreat {prefixed : List Symbol} {symbol : Symbol} {c : ItemCore}
    (h : g.ValidItem (prefixed ++ [symbol]) c) (hdot : c.dot ≠ 0) :
    ∃ d rest, c = d.advance ∧ g.ValidItem prefixed d ∧ g.after d = symbol :: rest := by
  generalize hw : prefixed ++ [symbol] = whole at h
  cases h with
  | start => simp at hw
  | predict => exact absurd rfl hdot
  | advance h hc =>
      obtain ⟨rfl, hs⟩ := List.append_inj' hw rfl
      cases hs
      exact ⟨_, _, rfl, h, hc⟩

theorem ValidLookahead.retreat {prefixed : List Symbol} {symbol : Symbol} {c : ItemCore}
    {t : TerminalId} (h : g.ValidLookahead (prefixed ++ [symbol]) c.advance t) :
    g.ValidLookahead prefixed c t := by
  generalize hw : prefixed ++ [symbol] = whole at h
  generalize hd : c.advance = d at h
  cases h with
  | start => simp at hw
  | begins => cases hd
  | passes => cases hd
  | @advance _ _ c' _ _ h hc =>
      obtain ⟨rfl, hs⟩ := List.append_inj' hw rfl
      have : c = c' := by
        cases c; cases c'
        simpa [ItemCore.advance] using hd
      exact this ▸ h

theorem ValidLookahead.retreat_append {prefixed u : List Symbol} {p : ProductionId} {dot : Nat}
    {t : TerminalId} (h : g.ValidLookahead (prefixed ++ u) ⟨p, dot + u.length⟩ t) :
    g.ValidLookahead prefixed ⟨p, dot⟩ t := by
  induction u using List.reverseRecOn with
  | nil => simpa using h
  | append_singleton u x ih =>
      rw [← List.append_assoc, List.length_append, List.length_singleton, ← Nat.add_assoc] at h
      exact ih (ValidLookahead.retreat (c := ⟨p, dot + u.length⟩) h)

/-- After a prefix, an item that is valid for it lets a terminal come next: in what it still
expects, or behind its production if all of that can vanish. -/
def Expects (g : Grammar) (prefixed : List Symbol) (c : ItemCore) (t : TerminalId) : Prop :=
  g.ValidItem prefixed c ∧ g.Begins (g.after c) t ∨
    g.ValidLookahead prefixed c t ∧ g.Vanishes (g.after c)

theorem Expects.predict {prefixed rest rhs : List Symbol} {c : ItemCore} {n : NonterminalId}
    {p : ProductionId} {t : TerminalId}
    (h : g.ValidItem prefixed c ∧ g.Begins rest t ∨ g.ValidLookahead prefixed c t ∧ g.Vanishes rest)
    (hc : g.after c = .nonterminal n :: rest) (hp : g.HasRule p n rhs) :
    g.ValidLookahead prefixed ⟨p, 0⟩ t := by
  rcases h with ⟨hvalid, hbegins⟩ | ⟨hvalid, hvanishes⟩
  · exact .begins hvalid hc hp hbegins
  · exact .passes hvalid hc hp hvanishes

/-- Some item lets a terminal come next after a prefix. -/
def Awaits (g : Grammar) (prefixed : List Symbol) (t : TerminalId) : Prop :=
  ∃ c, g.Expects prefixed c t

theorem ValidItem.exists_kernel_begins {prefixed : List Symbol} {c : ItemCore} {t : TerminalId}
    (h : g.ValidItem prefixed c) (hne : prefixed ≠ []) (ht : g.Begins (g.after c) t) :
    ∃ d, d.dot ≠ 0 ∧ g.Expects prefixed d t := by
  induction h with
  | start => exact absurd rfl hne
  | predict h hc hp ih =>
      rw [hp.after] at ht
      apply ih hne
      rw [hc]
      exact .of_derives (hp.derives_cons _) (ht.append_right _)
  | advance h hc _ => exact ⟨_, Nat.succ_ne_zero _, .inl ⟨.advance h hc, ht⟩⟩

theorem ValidLookahead.exists_kernel {prefixed : List Symbol} {c : ItemCore} {t : TerminalId}
    (h : g.ValidLookahead prefixed c t) (hne : prefixed ≠ []) (hv : g.Vanishes (g.after c)) :
    ∃ d, d.dot ≠ 0 ∧ g.Expects prefixed d t := by
  induction h with
  | start => exact absurd rfl hne
  | begins h hc hp ht =>
      rw [hp.after] at hv
      apply h.exists_kernel_begins hne
      rw [hc]
      exact .of_derives (hp.derives_cons _) (ht.append_left hv)
  | passes _ hc hp hrest ih =>
      rw [hp.after] at hv
      apply ih hne
      rw [hc]
      exact (hp.derives_cons _).trans (hv.append hrest)
  | advance h hc _ => exact ⟨_, Nat.succ_ne_zero _, .inr ⟨.advance h hc, hv⟩⟩

theorem Awaits.exists_kernel {prefixed : List Symbol} {t : TerminalId} (h : g.Awaits prefixed t)
    (hne : prefixed ≠ []) : ∃ d, d.dot ≠ 0 ∧ g.Expects prefixed d t := by
  obtain ⟨c, ⟨hvalid, hbegins⟩ | ⟨hvalid, hvanishes⟩⟩ := h
  · exact hvalid.exists_kernel_begins hne hbegins
  · exact hvalid.exists_kernel hne hvanishes

theorem Awaits.validLookahead {front rhs : List Symbol} {n : NonterminalId} {p : ProductionId}
    {t : TerminalId} (h : g.Awaits (front ++ [.nonterminal n]) t) (hp : g.HasRule p n rhs) :
    g.ValidLookahead (front ++ rhs) ⟨p, rhs.length⟩ t := by
  obtain ⟨d, hdot, hexpects⟩ := h.exists_kernel (by simp)
  have hvalid : g.ValidItem (front ++ [.nonterminal n]) d :=
    hexpects.elim And.left fun h => h.1.validItem
  obtain ⟨c, rest, rfl, hc, hafter⟩ := hvalid.retreat hdot
  have hfront : g.ValidLookahead front ⟨p, 0⟩ t := by
    refine Expects.predict ?_ hafter hp
    rcases hexpects with ⟨-, hbegins⟩ | ⟨hlookahead, hvanishes⟩
    · rw [after_advance hafter] at hbegins
      exact .inl ⟨hc, hbegins⟩
    · rw [after_advance hafter] at hvanishes
      exact .inr ⟨hlookahead.retreat, hvanishes⟩
  have hdone := hfront.advance_front hp (Nat.le_refl rhs.length)
  rwa [List.take_length] at hdone

theorem Awaits.of_reduced {front rhs : List Symbol} {n : NonterminalId} {p : ProductionId}
    {t : TerminalId} (h : g.Awaits (front ++ [.nonterminal n]) t) (hp : g.HasRule p n rhs) :
    g.Awaits (front ++ rhs) t := by
  refine ⟨⟨p, rhs.length⟩, .inr ⟨h.validLookahead hp, ?_⟩⟩
  rw [hp.after, List.drop_length]
  exact .refl []

end Grammar

end Lalr
