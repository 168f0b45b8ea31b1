import Lalr.Item.Closure
import Lalr.Proofs.ItemSets

namespace Lalr

namespace Grammar

/-- `c` expects a nonterminal of which `d` starts a production, and all that stands behind this
nonterminal can vanish. -/
def Inherits (g : Grammar) (c d : ItemCore) : Prop :=
  ∃ n rest p rhs, g.after c = .nonterminal n :: rest ∧ g.Vanishes rest ∧ g.HasRule p n rhs ∧
    d = ⟨p, 0⟩

/-- Cores and lookaheads that prediction does not lead out of. -/
structure Predictive (g : Grammar) (core : ItemCore → Prop)
    (lookahead : ItemCore → TerminalId → Prop) : Prop where
  predict : ∀ {c n rest p rhs}, core c → g.after c = .nonterminal n :: rest → g.HasRule p n rhs →
    core ⟨p, 0⟩
  begins : ∀ {c n rest p rhs t}, core c → g.after c = .nonterminal n :: rest →
    g.HasRule p n rhs → g.Begins rest t → lookahead ⟨p, 0⟩ t
  passes : ∀ {c n rest p rhs t}, lookahead c t → g.after c = .nonterminal n :: rest →
    g.HasRule p n rhs → g.Vanishes rest → lookahead ⟨p, 0⟩ t

theorem predictive_valid (g : Grammar) (γ : List Symbol) :
    g.Predictive (g.ValidItem γ) (g.ValidLookahead γ) :=
  ⟨.predict, .begins, .passes⟩

end Grammar

namespace ItemSet

/-- The item in a slot has all its predictions in the set. -/
def Expanded (g : Grammar) (owner : StateId) (s : ItemSet) (slot : Nat) : Prop :=
  ∀ ⦃item : Item⦄ ⦃n : NonterminalId⦄ ⦃rest rhs : List Symbol⦄ ⦃p : ProductionId⦄,
    s.items[slot]? = some item → g.after item.core = .nonterminal n :: rest → g.HasRule p n rhs →
      ∃ (j : Nat) (target : Item), s.items[j]? = some target ∧ target.core = ⟨p, 0⟩ ∧
        (∀ t, g.Begins rest t → t ∈ target.lookahead) ∧
        (g.Vanishes rest → ⟨owner, j⟩ ∈ item.links)

/-- All that is in a set has a reason: cores and lookaheads are as `core` and `lookahead` allow, and
links are those of prediction. -/
structure Justified (g : Grammar) (owner : StateId) (core : ItemCore → Prop)
    (lookahead : ItemCore → TerminalId → Prop) (s : ItemSet) : Prop where
  core : ∀ {slot : Nat} {item : Item}, s.items[slot]? = some item → core item.core
  lookahead : ∀ {slot : Nat} {item : Item} {t : TerminalId}, s.items[slot]? = some item →
    t ∈ item.lookahead → lookahead item.core t
  link : ∀ {slot : Nat} {item : Item} {r : ItemRef}, s.items[slot]? = some item →
    r ∈ item.links → r.state = owner ∧ ∃ target : Item, s.items[r.slot]? = some target ∧
      g.Inherits item.core target.core

variable {g : Grammar} {owner : StateId}

theorem Expanded.grow {s s' : ItemSet} {slot : Nat} (h : Expanded g owner s slot)
    (hs : s.Grows s') (hlt : slot < s.size) : Expanded g owner s' slot := by
  intro item' n rest rhs p hitem' hafter hrule
  obtain ⟨item'', hitem'', hcore, -, hlinks⟩ := hs (Array.getElem?_eq_getElem hlt)
  rw [hitem'] at hitem''
  cases hitem''
  rw [hcore] at hafter
  obtain ⟨j, target, htarget, hp, hbegins, hlink⟩ := h (Array.getElem?_eq_getElem hlt) hafter hrule
  obtain ⟨target', htarget', hp', hla, -⟩ := hs htarget
  exact ⟨j, target', htarget', hp'.trans hp, fun t ht => hla t (hbegins t ht),
    fun hv => hlinks _ (hlink hv)⟩

section Predict

variable {slot : Nat} {lookahead : TerminalSet} {linked : Bool}

def predictOne (owner : StateId) (slot : Nat) (lookahead : TerminalSet) (linked : Bool)
    (p : ProductionId) (s : ItemSet) : ItemSet :=
  if linked then
    (s.add (.initial p lookahead)).1.addLink slot ⟨owner, (s.add (.initial p lookahead)).2.1⟩
  else (s.add (.initial p lookahead)).1

theorem predict_cons {p : ProductionId} {ps : List ProductionId} {s : ItemSet}
    {pending : List Nat} :
    predict owner slot lookahead linked (p :: ps) s pending =
      predict owner slot lookahead linked ps (predictOne owner slot lookahead linked p s)
        (if (s.add (.initial p lookahead)).2.2 then (s.add (.initial p lookahead)).2.1 :: pending
          else pending) := rfl

section

variable (owner slot lookahead linked)

theorem grows_predictOne (p : ProductionId) (s : ItemSet) :
    s.Grows (predictOne owner slot lookahead linked p s) := by
  unfold predictOne
  split
  · exact (grows_add s _).trans (grows_addLink _ _ _)
  · exact grows_add s _

theorem grows_predict (ps : List ProductionId) (s : ItemSet) (pending : List Nat) :
    s.Grows (predict owner slot lookahead linked ps s pending).1 := by
  induction ps generalizing s pending with
  | nil => exact .refl s
  | cons p ps ih =>
      rw [predict_cons]
      exact (grows_predictOne owner slot lookahead linked p s).trans (ih _ _)

theorem size_predictOne (p : ProductionId) (s : ItemSet) :
    (predictOne owner slot lookahead linked p s).size =
      if (s.add (.initial p lookahead)).2.2 then s.size + 1 else s.size := by
  have hlink : (predictOne owner slot lookahead linked p s).size =
      (s.add (.initial p lookahead)).1.size := by
    unfold predictOne
    split <;> simp [addLink, modify, size]
  rw [hlink, size]
  rcases add_cases s (.initial p lookahead) with ⟨i, -, -, -, hslot, hitems⟩ | ⟨-, hslot, hitems⟩
  · simp [hslot, hitems, size]
  · simp [hslot, hitems, size]

theorem mem_pending_predict (ps : List ProductionId) (s : ItemSet) (pending : List Nat) :
    (∀ i ∈ pending, i ∈ (predict owner slot lookahead linked ps s pending).2) ∧
      ∀ i, s.size ≤ i → i < (predict owner slot lookahead linked ps s pending).1.size →
        i ∈ (predict owner slot lookahead linked ps s pending).2 := by
  induction ps generalizing s pending with
  | nil => exact ⟨fun _ hi => hi, fun i hle hlt => absurd hlt (by simp only [predict]; omega)⟩
  | cons p ps ih =>
      rw [predict_cons]
      obtain ⟨hold, hnew⟩ := ih (predictOne owner slot lookahead linked p s)
        (if (s.add (.initial p lookahead)).2.2 then (s.add (.initial p lookahead)).2.1 :: pending
          else pending)
      constructor
      · intro i hi
        apply hold
        split
        · exact List.mem_cons_of_mem _ hi
        · exact hi
      · intro i hle hlt
        rcases Nat.lt_or_ge i (predictOne owner slot lookahead linked p s).size with hi | hi
        · apply hold
          rw [size_predictOne] at hi
          rcases add_cases s (.initial p lookahead) with ⟨_, -, -, -, hslot, -⟩ | ⟨-, hslot, -⟩
          · simp only [hslot] at hi
            simp at hi
            omega
          · simp only [hslot, if_true] at hi ⊢
            have : i = s.size := by omega
            exact this ▸ List.mem_cons_self
        · exact hnew i hi hlt

theorem cores_predict (ps : List ProductionId) (s : ItemSet) (pending : List Nat) :
    ∃ extra, (predict owner slot lookahead linked ps s pending).1.cores = s.cores ++ extra ∧
      ∀ c ∈ extra, ∃ p ∈ ps, c = ⟨p, 0⟩ := by
  induction ps generalizing s pending with
  | nil => exact ⟨[], by simp [predict], by simp⟩
  | cons p ps ih =>
      rw [predict_cons]
      obtain ⟨extra, hextra, hpredicted⟩ := ih (predictOne owner slot lookahead linked p s)
        (if (s.add (.initial p lookahead)).2.2 then (s.add (.initial p lookahead)).2.1 :: pending
          else pending)
      have hcores : (predictOne owner slot lookahead linked p s).cores =
          (s.add (.initial p lookahead)).1.cores := by
        unfold predictOne
        split <;> simp
      rw [hextra, hcores, cores_add]
      have hlater : ∀ c ∈ extra, ∃ q ∈ p :: ps, c = ⟨q, 0⟩ := fun c hc =>
        (hpredicted c hc).imp fun q hq => ⟨List.mem_cons_of_mem p hq.1, hq.2⟩
      split
      · exact ⟨extra, rfl, hlater⟩
      · refine ⟨⟨p, 0⟩ :: extra, ?_, ?_⟩
        · rw [List.append_assoc]
          rfl
        · exact List.forall_mem_cons.mpr ⟨⟨p, List.mem_cons_self, rfl⟩, hlater⟩

end

/-- `p` is predicted under the whole lookahead, and linked to from `slot` if asked for. -/
def Covered (owner : StateId) (slot : Nat) (lookahead : TerminalSet) (linked : Bool)
    (p : ProductionId) (s : ItemSet) : Prop :=
  ∃ (j : Nat) (target : Item), s.items[j]? = some target ∧ target.core = ⟨p, 0⟩ ∧
    (∀ t ∈ lookahead, t ∈ target.lookahead) ∧
    (linked = true → ∃ item : Item, s.items[slot]? = some item ∧ ⟨owner, j⟩ ∈ item.links)

theorem Covered.grow {p : ProductionId} {s s' : ItemSet}
    (h : Covered owner slot lookahead linked p s) (hs : s.Grows s') :
    Covered owner slot lookahead linked p s' := by
  obtain ⟨j, target, htarget, hcore, hla, hlink⟩ := h
  obtain ⟨target', htarget', hcore', hla', -⟩ := hs htarget
  refine ⟨j, target', htarget', hcore'.trans hcore, fun t ht => hla' t (hla t ht), ?_⟩
  intro hlinked
  obtain ⟨item, hitem, hmem⟩ := hlink hlinked
  obtain ⟨item', hitem', -, -, hlinks⟩ := hs hitem
  exact ⟨item', hitem', hlinks _ hmem⟩

theorem covered_predictOne {s : ItemSet} (hslot : slot < s.size) (p : ProductionId) :
    Covered owner slot lookahead linked p (predictOne owner slot lookahead linked p s) := by
  obtain ⟨target, htarget, hcore, hla⟩ := getElem?_add_slot s (.initial p lookahead)
  obtain ⟨item, hitem, -⟩ := grows_add s (.initial p lookahead) (Array.getElem?_eq_getElem hslot)
  unfold predictOne
  split
  · obtain ⟨target', htarget', hcore', hla', -⟩ := grows_addLink _ slot
      ⟨owner, (s.add (.initial p lookahead)).2.1⟩ htarget
    refine ⟨_, target', htarget', hcore'.trans hcore, fun t ht => hla' t (hla t ht), fun _ => ?_⟩
    rw [getElem?_addLink, if_pos rfl, hitem]
    exact ⟨_, rfl, mem_links_addLink.mpr (.inr rfl)⟩
  · rename_i hlinked
    exact ⟨_, target, htarget, hcore, hla, fun h => absurd h hlinked⟩

theorem covered_predict (owner : StateId) (slot : Nat) (lookahead : TerminalSet) (linked : Bool)
    {ps : List ProductionId} {s : ItemSet} (pending : List Nat) {p : ProductionId} (hp : p ∈ ps)
    (hslot : slot < s.size) :
    Covered owner slot lookahead linked p
      (predict owner slot lookahead linked ps s pending).1 := by
  induction ps generalizing s pending with
  | nil => simp at hp
  | cons q ps ih =>
      rw [predict_cons]
      rcases List.mem_cons.mp hp with rfl | hp
      · exact (covered_predictOne hslot p).grow (grows_predict owner slot lookahead linked ps _ _)
      · apply ih _ hp
        rw [size_predictOne]
        split <;> omega

theorem Justified.add {core : ItemCore → Prop} {la : ItemCore → TerminalId → Prop} {s : ItemSet}
    (h : Justified g owner core la s) {p : ProductionId} (hcore : core ⟨p, 0⟩)
    (hla : ∀ t ∈ lookahead, la ⟨p, 0⟩ t) :
    Justified g owner core la (s.add (.initial p lookahead)).1 := by
  constructor
  · intro i it hit
    rcases getElem?_add hit with rfl | ⟨old, hold, hc, -, -⟩
    · exact hcore
    · exact hc ▸ h.core hold
  · intro i it t hit ht
    rcases getElem?_add hit with rfl | ⟨old, hold, hc, -, hmem⟩
    · exact hla t ht
    · rw [hc]
      rcases hmem t ht with ht | ⟨ht, hc'⟩
      · exact h.lookahead hold ht
      · exact hc' ▸ hla t ht
  · intro i it r hit hr
    rcases getElem?_add hit with rfl | ⟨old, hold, hc, hlinks, -⟩
    · simp [Item.initial] at hr
    · obtain ⟨hstate, target, htarget, hinh⟩ := h.link hold (hlinks ▸ hr)
      obtain ⟨target', htarget', hc', -⟩ := grows_add s (.initial p lookahead) htarget
      exact ⟨hstate, target', htarget', by rwa [hc, hc']⟩

theorem Justified.addLink {core : ItemCore → Prop} {la : ItemCore → TerminalId → Prop} {s : ItemSet}
    (h : Justified g owner core la s) {item target : Item} {j : Nat}
    (hitem : s.items[slot]? = some item) (htarget : s.items[j]? = some target)
    (hlink : g.Inherits item.core target.core) :
    Justified g owner core la (s.addLink slot ⟨owner, j⟩) := by
  have hold : ∀ {i : Nat} {it : Item}, (s.addLink slot ⟨owner, j⟩).items[i]? = some it →
      ∃ it', s.items[i]? = some it' ∧ (it = it' ∨ i = slot ∧ it = it'.addLink ⟨owner, j⟩) := by
    intro i it hit
    rw [getElem?_addLink] at hit
    split at hit
    · rename_i heq
      obtain ⟨it', hit', rfl⟩ := Option.map_eq_some_iff.mp hit
      exact ⟨it', hit', .inr ⟨heq.symm, rfl⟩⟩
    · exact ⟨it, hit, .inl rfl⟩
  constructor
  · intro i it hit
    obtain ⟨it', hit', rfl | ⟨-, rfl⟩⟩ := hold hit
    · exact h.core hit'
    · exact (it'.core_addLink _).symm ▸ h.core hit'
  · intro i it t hit ht
    obtain ⟨it', hit', rfl | ⟨-, rfl⟩⟩ := hold hit
    · exact h.lookahead hit' ht
    · rw [lookahead_addLink] at ht
      exact (it'.core_addLink _).symm ▸ h.lookahead hit' ht
  · intro i it r hit hr
    -- The target of a link keeps its core, so a link that was justified still is.
    have hlater : (r.state = owner ∧ ∃ target : Item, s.items[r.slot]? = some target ∧
        g.Inherits it.core target.core) → r.state = owner ∧ ∃ target : Item,
          (s.addLink slot ⟨owner, j⟩).items[r.slot]? = some target ∧
            g.Inherits it.core target.core := by
      rintro ⟨hstate, target, htarget, hinh⟩
      obtain ⟨target', htarget', hc', -⟩ := grows_addLink s slot ⟨owner, j⟩ htarget
      exact ⟨hstate, target', htarget', hc'.symm ▸ hinh⟩
    apply hlater
    obtain ⟨it', hit', rfl | ⟨rfl, rfl⟩⟩ := hold hit
    · exact h.link hit' hr
    · rw [it'.core_addLink]
      rcases mem_links_addLink.mp hr with hr | rfl
      · exact h.link hit' hr
      · rw [hitem] at hit'
        cases hit'
        exact ⟨rfl, target, htarget, hlink⟩

theorem Justified.predictOne {core : ItemCore → Prop} {la : ItemCore → TerminalId → Prop}
    {s : ItemSet} (h : Justified g owner core la s) {item : Item}
    (hitem : s.items[slot]? = some item) {p : ProductionId} (hcore : core ⟨p, 0⟩)
    (hla : ∀ t ∈ lookahead, la ⟨p, 0⟩ t) (hlink : linked = true → g.Inherits item.core ⟨p, 0⟩) :
    Justified g owner core la (predictOne owner slot lookahead linked p s) := by
  have hadd := h.add hcore hla
  unfold ItemSet.predictOne
  split
  · rename_i hlinked
    obtain ⟨target, htarget, htc, -⟩ := getElem?_add_slot s (.initial p lookahead)
    obtain ⟨item', hitem', hic, -⟩ := grows_add s (.initial p lookahead) hitem
    apply hadd.addLink hitem' htarget
    rw [htc, hic]
    exact hlink hlinked
  · exact hadd

theorem Justified.predict {core : ItemCore → Prop} {la : ItemCore → TerminalId → Prop}
    {ps : List ProductionId} {s : ItemSet} {pending : List Nat}
    (h : Justified g owner core la s) {item : Item} (hitem : s.items[slot]? = some item)
    (hcore : ∀ p ∈ ps, core ⟨p, 0⟩) (hla : ∀ p ∈ ps, ∀ t ∈ lookahead, la ⟨p, 0⟩ t)
    (hlink : ∀ p ∈ ps, linked = true → g.Inherits item.core ⟨p, 0⟩) :
    Justified g owner core la (predict owner slot lookahead linked ps s pending).1 := by
  induction ps generalizing s pending item with
  | nil => exact h
  | cons p ps ih =>
      rw [predict_cons]
      obtain ⟨item', hitem', hc, -⟩ := grows_predictOne owner slot lookahead linked p s hitem
      refine ih (h.predictOne hitem (hcore p List.mem_cons_self) (hla p List.mem_cons_self)
        (hlink p List.mem_cons_self)) hitem' ?_ ?_ ?_
      · exact fun q hq => hcore q (List.mem_cons_of_mem _ hq)
      · exact fun q hq => hla q (List.mem_cons_of_mem _ hq)
      · exact fun q hq => hc ▸ hlink q (List.mem_cons_of_mem _ hq)

end Predict

theorem after_eq_of_symbolAt {c : ItemCore} {production : Production} {n : NonterminalId}
    (hproduction : g.production? c.production = some production)
    (hsymbol : production.symbolAt c.dot = some (.nonterminal n)) :
    g.after c = .nonterminal n :: (production.rhs.toList.map Part.symbol).drop (c.dot + 1) := by
  have hget : production.symbols[c.dot]? = some (.nonterminal n) := by
    rw [← hsymbol]
    simp [Rule.symbols, Rule.symbolAt]
  obtain ⟨hlt, hget⟩ := List.getElem?_eq_some_iff.mp hget
  unfold Grammar.after
  rw [hproduction, Option.elim_some, List.drop_eq_getElem_cons hlt, hget]
  rfl

theorem expanded_of_symbolAt {s : ItemSet} {slot : Nat} {item : Item} {production : Production}
    (hitem : s.items[slot]? = some item)
    (hproduction : g.production? item.core.production = some production)
    (hsymbol : ∀ n, production.symbolAt item.core.dot ≠ some (.nonterminal n)) :
    Expanded g owner s slot := by
  intro item' n rest rhs p hitem' hafter _
  rw [hitem] at hitem'
  cases hitem'
  obtain ⟨m, rhs', hrule, hdrop⟩ := Grammar.hasRule_of_after hafter
  obtain ⟨production', hproduction', rfl, rfl⟩ := hrule
  rw [hproduction] at hproduction'
  cases hproduction'
  have hget : production.symbols[item.core.dot]? = some (.nonterminal n) := by
    rw [← List.head?_drop, hdrop, List.head?_cons]
  refine absurd ?_ (hsymbol n)
  rw [← hget]
  simp [Rule.symbols, Rule.symbolAt]

theorem expanded_predict (owner : StateId) (hg : g.WellFormed) {s : ItemSet} {slot : Nat}
    {item : Item} {n : NonterminalId} {rhs : Array Part} (pending : List Nat)
    (hitem : s.items[slot]? = some item)
    (hafter : g.after item.core =
      .nonterminal n :: (rhs.toList.map Part.symbol).drop (item.core.dot + 1)) :
    Expanded g owner
      (predict owner slot (g.firstWithLookahead rhs (item.core.dot + 1) item.lookahead).1
        (g.firstWithLookahead rhs (item.core.dot + 1) item.lookahead).2 (g.productionsOf n) s
        pending).1 slot := by
  intro item' m rest right p hitem' hafter' hrule
  obtain ⟨it, hit, hcore, -⟩ := grows_predict owner slot
    (g.firstWithLookahead rhs (item.core.dot + 1) item.lookahead).1
    (g.firstWithLookahead rhs (item.core.dot + 1) item.lookahead).2 (g.productionsOf n) s pending
    hitem
  rw [hitem'] at hit
  cases hit
  rw [hcore, hafter] at hafter'
  cases hafter'
  have hp : p ∈ g.productionsOf n := hg.mem_productionsOf.mpr ⟨right, hrule⟩
  obtain ⟨j, target, htarget, hcoreTarget, hla, hlink⟩ := covered_predict owner slot
    (g.firstWithLookahead rhs (item.core.dot + 1) item.lookahead).1
    (g.firstWithLookahead rhs (item.core.dot + 1) item.lookahead).2 pending hp
    (Array.getElem?_eq_some_iff.mp hitem).1
  refine ⟨j, target, htarget, hcoreTarget, ?_, ?_⟩
  · exact fun t ht => hla t (hg.mem_firstWithLookahead.mpr (.inl ht))
  · intro hv
    obtain ⟨it, hit, hmem⟩ := hlink (hg.firstWithLookahead_snd.mpr hv)
    rw [hitem'] at hit
    cases hit
    exact hmem

/-- Closing keeps all slots, also where it fails. -/
theorem grows_closeFrom (g : Grammar) (owner : StateId) (s : ItemSet) (pending : List Nat) :
    s.Grows (s.closeFrom g owner pending).state := by
  fun_induction closeFrom g owner s pending with
  | case1 s => exact .refl s
  | case2 s slot pending hnone ih => exact ih
  | case3 s slot pending item hitem hunknown => exact .refl s
  | case4 s slot pending item hitem production hproduction n hsymbol lookahead vanishes hfirst
      closed =>
      rename_i ih
      exact (grows_predict owner slot lookahead vanishes (g.productionsOf n) s pending).trans ih
  | case5 s slot pending item hitem production hproduction hsymbol ih => exact ih

/-- Closing adds only cores with the mark in front, and expands every slot. -/
theorem closeFrom_expands (hg : g.WellFormed) {s s' : ItemSet} {pending : List Nat}
    (h : s.closeFrom g owner pending = ⟨.ok (), s'⟩)
    (hs : ∀ slot < s.size, slot ∈ pending ∨ Expanded g owner s slot) :
    (∃ extra, s'.cores = s.cores ++ extra ∧ ∀ c ∈ extra, c.dot = 0) ∧
      ∀ slot < s'.size, Expanded g owner s' slot := by
  fun_induction closeFrom g owner s pending with
  | case1 s =>
      cases h
      exact ⟨⟨[], by simp, by simp⟩, fun slot hlt => (hs slot hlt).resolve_left (by simp)⟩
  | case2 s slot pending hnone ih =>
      refine ih h fun i hi => ?_
      rcases hs i hi with hmem | hexp
      · rcases List.mem_cons.mp hmem with rfl | hmem
        · rw [Array.getElem?_eq_none_iff] at hnone
          exact absurd hi (Nat.not_lt_of_le hnone)
        · exact .inl hmem
      · exact .inr hexp
  | case3 s slot pending item hitem hunknown => cases h
  | case4 s slot pending item hitem production hproduction n hsymbol lookahead vanishes hfirst
      closed ih =>
      have hafter := after_eq_of_symbolAt hproduction hsymbol
      have hexpanded := expanded_predict owner hg pending hitem hafter
      have hgrows := grows_predict owner slot lookahead vanishes (g.productionsOf n) s pending
      obtain ⟨hold, hnew⟩ :=
        mem_pending_predict owner slot lookahead vanishes (g.productionsOf n) s pending
      obtain ⟨extra, hextra, hpredicted⟩ :=
        cores_predict owner slot lookahead vanishes (g.productionsOf n) s pending
      rw [hfirst] at hexpanded
      obtain ⟨⟨extra', hextra', hdots'⟩, hall⟩ := ih h fun i hi => by
        rcases Nat.lt_or_ge i s.size with hlt | hge
        · rcases hs i hlt with hmem | hexp
          · rcases List.mem_cons.mp hmem with rfl | hmem
            · exact .inr hexpanded
            · exact .inl (hold i hmem)
          · exact .inr (hexp.grow hgrows hlt)
        · exact .inl (hnew i hge hi)
      refine ⟨⟨extra ++ extra', ?_, ?_⟩, hall⟩
      · rw [hextra', hextra, List.append_assoc]
      · intro c hc
        rcases List.mem_append.mp hc with hc | hc
        · obtain ⟨p, -, rfl⟩ := hpredicted c hc
          rfl
        · exact hdots' c hc
  | case5 s slot pending item hitem production hproduction hsymbol ih =>
      refine ih h fun i hi => ?_
      rcases hs i hi with hmem | hexp
      · rcases List.mem_cons.mp hmem with rfl | hmem
        · exact .inr (expanded_of_symbolAt hitem hproduction fun n hn => hsymbol n hn)
        · exact .inl hmem
      · exact .inr hexp

theorem closeFrom_justified (hg : g.WellFormed) {core : ItemCore → Prop}
    {la : ItemCore → TerminalId → Prop} (hpredictive : g.Predictive core la)
    {s s' : ItemSet} {pending : List Nat} (h : s.closeFrom g owner pending = ⟨.ok (), s'⟩)
    (hs : Justified g owner core la s) : Justified g owner core la s' := by
  fun_induction closeFrom g owner s pending with
  | case1 s =>
      cases h
      exact hs
  | case2 s slot pending hnone ih => exact ih h hs
  | case3 s slot pending item hitem hunknown => cases h
  | case4 s slot pending item hitem production hproduction n hsymbol lookahead vanishes hfirst
      closed ih =>
      have hafter := after_eq_of_symbolAt hproduction hsymbol
      have hrule : ∀ p ∈ g.productionsOf n, ∃ rhs, g.HasRule p n rhs :=
        fun p hp => hg.mem_productionsOf.mp hp
      refine ih h (hs.predict hitem ?_ ?_ ?_)
      · intro p hp
        obtain ⟨rhs, hp⟩ := hrule p hp
        exact hpredictive.predict (hs.core hitem) hafter hp
      · intro p hp t ht
        obtain ⟨rhs, hp⟩ := hrule p hp
        have ht' : t ∈ (g.firstWithLookahead production.rhs (item.core.dot + 1)
            item.lookahead).1 := by rwa [hfirst]
        rcases hg.mem_firstWithLookahead.mp ht' with hb | ⟨hv, hmem⟩
        · exact hpredictive.begins (hs.core hitem) hafter hp hb
        · exact hpredictive.passes (hs.lookahead hitem hmem) hafter hp hv
      · intro p hp hlinked
        obtain ⟨rhs, hp⟩ := hrule p hp
        have hv : (g.firstWithLookahead production.rhs (item.core.dot + 1)
            item.lookahead).2 = true := by rwa [hfirst]
        exact ⟨n, _, p, rhs, hafter, hg.firstWithLookahead_snd.mp hv, hp, rfl⟩
  | case5 s slot pending item hitem production hproduction hsymbol ih => exact ih h hs

theorem known_predict (hg : g.WellFormed) {s : ItemSet}
    (hs : ∀ c ∈ s.cores, (g.production? c.production).isSome) (slot : Nat) (lookahead : TerminalSet)
    (linked : Bool) (n : NonterminalId) (pending : List Nat) :
    ∀ c ∈ (predict owner slot lookahead linked (g.productionsOf n) s pending).1.cores,
      (g.production? c.production).isSome := by
  intro c hc
  obtain ⟨extra, hextra, hpredicted⟩ :=
    cores_predict owner slot lookahead linked (g.productionsOf n) s pending
  rw [hextra, List.mem_append] at hc
  rcases hc with hc | hc
  · exact hs c hc
  · obtain ⟨p, hp, rfl⟩ := hpredicted c hc
    obtain ⟨rhs, production, hproduction, -⟩ := hg.mem_productionsOf.mp hp
    exact Option.isSome_iff_exists.mpr ⟨production, hproduction⟩

/-- Closing never fails as long as all productions are there, and it adds none that is not. -/
theorem closeFrom_total (hg : g.WellFormed) (owner : StateId) {s : ItemSet} {pending : List Nat}
    (hs : ∀ c ∈ s.cores, (g.production? c.production).isSome) :
    (s.closeFrom g owner pending).outcome = .ok () ∧
      ∀ c ∈ (s.closeFrom g owner pending).state.cores, (g.production? c.production).isSome := by
  fun_induction closeFrom g owner s pending with
  | case1 s => exact ⟨rfl, hs⟩
  | case2 s slot pending hnone ih => exact ih hs
  | case3 s slot pending item hitem hunknown =>
      have hknown := hs item.core (mem_cores.mpr ⟨slot, item, hitem, rfl⟩)
      rw [hunknown] at hknown
      cases hknown
  | case4 s slot pending item hitem production hproduction n hsymbol lookahead vanishes hfirst
      closed ih => exact ih (known_predict hg hs slot lookahead vanishes n pending)
  | case5 s slot pending item hitem production hproduction hsymbol ih => exact ih hs

theorem close_total (hg : g.WellFormed) (owner : StateId) {s : ItemSet}
    (hs : ∀ c ∈ s.cores, (g.production? c.production).isSome) :
    ∃ closed, s.close g owner = ⟨.ok (), closed⟩ ∧
      ∀ c ∈ closed.cores, (g.production? c.production).isSome := by
  obtain ⟨hok, hknown⟩ := closeFrom_total hg owner hs
  exact ⟨(s.close g owner).state, by rw [← hok]; rfl, hknown⟩

theorem close_expands (hg : g.WellFormed) {s s' : ItemSet}
    (h : s.close g owner = ⟨.ok (), s'⟩) :
    s.Grows s' ∧ (∃ extra, s'.cores = s.cores ++ extra ∧ ∀ c ∈ extra, c.dot = 0) ∧
      ∀ slot < s'.size, Expanded g owner s' slot := by
  refine ⟨?_, closeFrom_expands hg h fun _ hlt => .inl (List.mem_range.mpr hlt)⟩
  have hgrows := grows_closeFrom g owner s (List.range s.size)
  rw [close] at h
  rwa [h] at hgrows

theorem close_justified (hg : g.WellFormed) {core : ItemCore → Prop}
    {la : ItemCore → TerminalId → Prop} (hpredictive : g.Predictive core la) {s s' : ItemSet}
    (h : s.close g owner = ⟨.ok (), s'⟩) (hs : Justified g owner core la s) :
    Justified g owner core la s' :=
  closeFrom_justified hg hpredictive h hs

end ItemSet

end Lalr
