import Lalr.Proofs.Links

namespace Lalr.Automaton

/-- What tells kernels apart: their owners, and where the kernel of each state ends. -/
def frame (a : Automaton) : KernelMap × List Nat :=
  (a.kernels, a.states.toList.map (·.kernelSize))

end Automaton

/-- The same items in the same slots, with the same links, but without lookaheads. -/
def ItemSet.blank (s : ItemSet) : ItemSet :=
  s.mapIdx (fun _ item => { item with lookahead := ∅ }) fun _ _ => rfl

theorem ItemSet.blank_modify (s : ItemSet) (slot : Nat) {f : Item → Item}
    (keeps : ∀ item, (f item).core = item.core) (hlinks : ∀ item, (f item).links = item.links) :
    (s.modify slot f keeps).blank = s.blank := by
  have hitem : ∀ item, { f item with lookahead := ∅ } = { item with lookahead := ∅ } := by
    intro item
    simp only [keeps, hlinks]
  have hitems : (s.modify slot f keeps).blank.items = s.blank.items := by
    apply Array.ext_getElem?
    intro i
    simp only [blank, mapIdx, modify, Array.getElem?_mapIdx, Array.getElem?_modify]
    split
    · cases s.items[i]? with
      | none => rfl
      | some item => exact congrArg some (hitem item)
    · rfl
  rw [mk.injEq]
  exact ⟨hitems, rfl⟩

namespace Automaton

def blank (a : Automaton) : Automaton :=
  { a with states := a.states.map fun q => { q with items := q.items.blank }, passes := 0 }

/-- `b` differs from `a` at most in the number of passes and in that lookaheads are larger. -/
structure Fills (a b : Automaton) : Prop where
  blank : b.blank = a.blank
  item : ∀ {r : ItemRef} {item : Item}, a.item r = .ok item → ∃ item', b.item r = .ok item' ∧
    item'.core = item.core ∧ item'.links = item.links ∧ ∀ t ∈ item.lookahead, t ∈ item'.lookahead

/-- All terminals in lookaheads are such as `P` allows. -/
def Within (P : ItemRef → TerminalId → Prop) (a : Automaton) : Prop :=
  ∀ ⦃r : ItemRef⦄ ⦃item : Item⦄, a.item r = .ok item → ∀ t ∈ item.lookahead, P r t

/-- `P` does not lead out of itself along links. -/
def Conducts (P : ItemRef → TerminalId → Prop) (a : Automaton) : Prop :=
  ∀ ⦃r : ItemRef⦄ ⦃item : Item⦄, a.item r = .ok item → ∀ r' ∈ item.links, ∀ t, P r t → P r' t

/-- The items at the places `targets` have all of a lookahead. -/
def Receives (a : Automaton) (lookahead : TerminalSet) (targets : List ItemRef) : Prop :=
  ∀ r ∈ targets, ∃ item, a.item r = .ok item ∧ ∀ t ∈ lookahead, t ∈ item.lookahead

/-- The item at a place has passed on all that it has. -/
def Settled (a : Automaton) (r : ItemRef) : Prop :=
  ∀ item, a.item r = .ok item → a.Receives item.lookahead item.links

variable {a b c : Automaton}

@[simp] theorem outline_blank (a : Automaton) : a.blank.outline = a.outline := by
  apply List.ext_getElem?
  intro i
  simp only [outline, blank, List.getElem?_map, Array.getElem?_toList, Array.getElem?_map,
    Option.map_map]
  cases a.states[i]? with
  | none => rfl
  | some q =>
      exact congrArg some (Prod.ext rfl (Prod.ext (ItemSet.cores_mapIdx _ fun _ _ => rfl) rfl))

@[simp] theorem frame_blank (a : Automaton) : a.blank.frame = a.frame := by
  simp [frame, blank, Function.comp_def]

theorem Fills.refl (a : Automaton) : a.Fills a :=
  ⟨rfl, fun h => ⟨_, h, rfl, rfl, fun _ ht => ht⟩⟩

theorem Fills.outline (h : a.Fills b) : b.outline = a.outline := by
  rw [← outline_blank b, h.blank, outline_blank]

theorem Fills.frame (h : a.Fills b) : b.frame = a.frame := by
  rw [← frame_blank b, h.blank, frame_blank]

theorem Fills.trans (h : a.Fills b) (h' : b.Fills c) : a.Fills c := by
  refine ⟨h'.blank.trans h.blank, fun hitem => ?_⟩
  obtain ⟨item', hitem', hcore, hlinks, hla⟩ := h.item hitem
  obtain ⟨item'', hitem'', hcore', hlinks', hla'⟩ := h'.item hitem'
  exact ⟨item'', hitem'', hcore'.trans hcore, hlinks'.trans hlinks, fun t ht => hla' t (hla t ht)⟩

theorem Fills.of_item (h : a.Fills b) {r : ItemRef} {item' : Item} (hitem' : b.item r = .ok item') :
    ∃ item, a.item r = .ok item ∧ item'.core = item.core ∧ item'.links = item.links ∧
      ∀ t ∈ item.lookahead, t ∈ item'.lookahead := by
  obtain ⟨q', hq', hslot'⟩ := item_eq_ok.mp hitem'
  obtain ⟨q, hq, -, hcores, -⟩ := exists_of_outline_eq h.outline hq'
  have hlt : r.slot < q.items.items.size := by
    have := (Array.getElem?_eq_some_iff.mp hslot').1
    rw [← ItemSet.size, ← ItemSet.length_cores] at this ⊢
    exact hcores ▸ this
  have hitem : a.item r = .ok q.items.items[r.slot] :=
    item_eq_ok.mpr ⟨q, hq, Array.getElem?_eq_getElem hlt⟩
  obtain ⟨item, hitem'', hrest⟩ := h.item hitem
  rw [hitem', Except.ok.injEq] at hitem''
  subst hitem''
  exact ⟨_, hitem, hrest⟩

theorem Conducts.of_fills {P : ItemRef → TerminalId → Prop} (h : Conducts P a) (hab : a.Fills b) :
    Conducts P b := by
  intro r item' hitem' r' hr' t ht
  obtain ⟨item, hitem, -, hlinks, -⟩ := hab.of_item hitem'
  exact h hitem r' (hlinks ▸ hr') t ht

theorem item_setLookahead {r r' : ItemRef} {lookahead : TerminalSet} {item' : Item} :
    (a.setLookahead r lookahead).item r' = .ok item' ↔
      ∃ item, a.item r' = .ok item ∧ item' = if r' = r then { item with lookahead } else item := by
  simp only [item_eq_ok, setLookahead, modifyItems, Array.getElem?_modify]
  by_cases hstate : r.state.index = r'.state.index
  · have hr : r' = r ↔ r.slot = r'.slot := by
      obtain ⟨s, i⟩ := r
      obtain ⟨s', i'⟩ := r'
      obtain rfl : s = s' := Ident.ext_index hstate
      simp [eq_comm]
    rw [if_pos hstate]
    constructor
    · rintro ⟨q', hq', hitem'⟩
      obtain ⟨q, hq, rfl⟩ := Option.map_eq_some_iff.mp hq'
      simp only [ItemSet.setLookahead, ItemSet.modify, Array.getElem?_modify] at hitem'
      split at hitem'
      · rename_i hslot
        obtain ⟨item, hitem, rfl⟩ := Option.map_eq_some_iff.mp hitem'
        exact ⟨item, ⟨q, hq, hitem⟩, by rw [if_pos (hr.mpr hslot)]⟩
      · rename_i hslot
        exact ⟨item', ⟨q, hq, hitem'⟩, by rw [if_neg (hslot ∘ hr.mp)]⟩
    · rintro ⟨item, ⟨q, hq, hitem⟩, rfl⟩
      refine ⟨_, by rw [hq, Option.map_some], ?_⟩
      simp only [ItemSet.setLookahead, ItemSet.modify, Array.getElem?_modify, hitem, hr]
      split <;> rfl
  · have hr : r' ≠ r := fun h => hstate (h ▸ rfl)
    simp only [if_neg hstate, if_neg hr]
    constructor
    · rintro ⟨q, hq, hitem⟩
      exact ⟨item', ⟨q, hq, hitem⟩, rfl⟩
    · rintro ⟨item, hitem, rfl⟩
      exact hitem

theorem blank_setLookahead (a : Automaton) (r : ItemRef) (lookahead : TerminalSet) :
    (a.setLookahead r lookahead).blank = a.blank := by
  have hitems : ∀ s : ItemSet, (s.setLookahead r.slot lookahead).blank = s.blank :=
    fun s => s.blank_modify r.slot _ fun _ => rfl
  have hstates : (a.setLookahead r lookahead).blank.states = a.blank.states := by
    apply Array.ext_getElem?
    intro i
    simp only [blank, setLookahead, modifyItems, Array.getElem?_map, Array.getElem?_modify]
    split
    · cases a.states[i]? <;> simp [hitems]
    · rfl
  rw [Automaton.mk.injEq]
  exact ⟨hstates, rfl, rfl⟩

theorem fills_setLookahead {r : ItemRef} {item : Item} {lookahead : TerminalSet}
    (hitem : a.item r = .ok item) (h : ∀ t ∈ item.lookahead, t ∈ lookahead) :
    a.Fills (a.setLookahead r lookahead) := by
  refine ⟨blank_setLookahead a r lookahead, fun {r' item'} hitem' => ?_⟩
  refine ⟨_, item_setLookahead.mpr ⟨item', hitem', rfl⟩, ?_⟩
  split
  · rename_i hr
    subst hr
    rw [hitem, Except.ok.injEq] at hitem'
    subst hitem'
    exact ⟨rfl, rfl, h⟩
  · exact ⟨rfl, rfl, fun _ ht => ht⟩

theorem pour_spec {P : ItemRef → TerminalId → Prop} {lookahead : TerminalSet}
    {targets grown grown' : List ItemRef} (h : pour lookahead targets a grown = ⟨.ok grown', b⟩) :
    a.Fills b ∧ ((∀ r ∈ targets, ∀ t ∈ lookahead, P r t) → Within P a → Within P b) ∧
      (grown' = [] → grown = [] ∧ b = a ∧ a.Receives lookahead targets) := by
  induction targets generalizing a grown with
  | nil =>
      cases h
      exact ⟨.refl _, fun _ ha => ha,
        fun hnil => ⟨hnil, rfl, fun _ hr => absurd hr List.not_mem_nil⟩⟩
  | cons r targets ih =>
      unfold pour at h
      split at h
      · cases h
      · rename_i item hitem
        simp only at h
        split at h
        · rename_i hgrew
          obtain ⟨hfills, hwithin, hnil⟩ := ih h
          have hjoined : ∀ t, t ∈ (item.lookahead.absorb lookahead).1 ↔
              t ∈ item.lookahead ∨ t ∈ lookahead := fun t => by simp
          refine ⟨?_, ?_, fun h => by cases (hnil h).1⟩
          · exact (fills_setLookahead hitem fun t ht => (hjoined t).mpr (.inl ht)).trans hfills
          · intro hP ha
            refine hwithin (fun r' hr' => hP r' (List.mem_cons_of_mem r hr')) ?_
            intro r' item' hitem' t ht
            obtain ⟨old, hold, rfl⟩ := item_setLookahead.mp hitem'
            split at ht
            · rename_i hr
              subst hr
              rw [hitem, Except.ok.injEq] at hold
              subst hold
              rcases (hjoined t).mp ht with ht | ht
              · exact ha hitem t ht
              · exact hP _ List.mem_cons_self t ht
            · exact ha hold t ht
        · rename_i hsame
          obtain ⟨hfills, hwithin, hnil⟩ := ih h
          refine ⟨hfills, fun hP => hwithin fun r' hr' => hP r' (List.mem_cons_of_mem r hr'), ?_⟩
          intro hgrown
          obtain ⟨hempty, rfl, hreceives⟩ := hnil hgrown
          refine ⟨hempty, rfl, ?_⟩
          intro r' hr'
          rcases List.mem_cons.mp hr' with rfl | hr'
          · rw [IdentSet.absorb_snd, ne_eq, Decidable.not_not, IdentSet.union_eq_left,
              IdentSet.subset_iff] at hsame
            exact ⟨item, hitem, hsame⟩
          · exact hreceives r' hr'

theorem flow_spec {P : ItemRef → TerminalId → Prop} {changed changed' : Bool}
    {stack : List ItemRef} (h : flow a changed stack = ⟨.ok changed', b⟩) :
    a.Fills b ∧ (Conducts P a → Within P a → Within P b) ∧
      (changed' = false → changed = false ∧ b = a ∧ ∀ r ∈ stack, a.Settled r) := by
  fun_induction flow a changed stack with
  | case1 a changed =>
      cases h
      exact ⟨.refl _, fun _ ha => ha, fun hf => ⟨hf, rfl, fun _ hr => absurd hr List.not_mem_nil⟩⟩
  | case2 => cases h
  | case3 => cases h
  | case4 a changed r stack item hitem grown a' hpour ih =>
      obtain ⟨hfills, hwithin, hnil⟩ := pour_spec (P := P) hpour
      obtain ⟨hfills', hwithin', hsettled⟩ := ih h
      refine ⟨hfills.trans hfills', ?_, ?_⟩
      · intro hP ha
        exact hwithin' (hP.of_fills hfills)
          (hwithin (fun r' hr' t ht => hP hitem r' hr' t (ha hitem t ht)) ha)
      · intro hfalse
        obtain ⟨hchanged, rfl, hstack⟩ := hsettled hfalse
        rw [Bool.or_eq_false_iff, Bool.not_eq_false', List.isEmpty_iff] at hchanged
        obtain ⟨-, rfl, hreceives⟩ := hnil hchanged.2
        refine ⟨hchanged.1, rfl, ?_⟩
        intro r' hr'
        rcases List.mem_cons.mp hr' with rfl | hr'
        · intro item' hitem'
          rw [hitem, Except.ok.injEq] at hitem'
          exact hitem' ▸ hreceives
        · exact hstack r' (List.mem_append_right _ hr')

theorem pass_spec {P : ItemRef → TerminalId → Prop} {places : List ItemRef}
    {changed changed' : Bool} (h : pass places a changed = ⟨.ok changed', b⟩) :
    a.Fills b ∧ (Conducts P a → Within P a → Within P b) ∧
      (changed' = false → changed = false ∧ b = a ∧ ∀ r ∈ places, a.Settled r) := by
  induction places generalizing a changed with
  | nil =>
      cases h
      exact ⟨.refl _, fun _ ha => ha, fun hf => ⟨hf, rfl, fun _ hr => absurd hr List.not_mem_nil⟩⟩
  | cons r places ih =>
      unfold pass at h
      split at h
      · cases h
      · rename_i changed₁ a' hflow
        obtain ⟨hfills, hwithin, hsettled⟩ := flow_spec (P := P) hflow
        obtain ⟨hfills', hwithin', hsettled'⟩ := ih h
        refine ⟨hfills.trans hfills',
          fun hP ha => hwithin' (hP.of_fills hfills) (hwithin hP ha), ?_⟩
        intro hfalse
        obtain ⟨hchanged, rfl, hplaces⟩ := hsettled' hfalse
        obtain ⟨hchanged, rfl, hstack⟩ := hsettled hchanged
        refine ⟨hchanged, rfl, ?_⟩
        intro r' hr'
        rcases List.mem_cons.mp hr' with rfl | hr'
        · exact hstack _ (List.mem_singleton_self _)
        · exact hplaces r' hr'

theorem mem_places {r : ItemRef} {item : Item} (h : a.item r = .ok item) : r ∈ a.places := by
  obtain ⟨q, hq, hitem⟩ := item_eq_ok.mp h
  unfold places
  refine List.mem_flatMap.mpr ⟨(q, r.state.index), ?_, ?_⟩
  · rw [List.mem_zipIdx_iff_getElem?, Array.getElem?_toList, hq]
  · simp only [State.places, Ident.truncate_index, List.mem_map, List.mem_range]
    exact ⟨r.slot, (Array.getElem?_eq_some_iff.mp hitem).1, rfl⟩

theorem passFrom_spec {P : ItemRef → TerminalId → Prop} {n m : Nat}
    (h : passFrom a n = ⟨.ok m, b⟩) :
    a.Fills b ∧ (Conducts P a → Within P a → Within P b) ∧ ∀ r, b.Settled r := by
  fun_induction passFrom a n with
  | case1 => cases h
  | case2 a n a' hpass ih =>
      obtain ⟨hfills, hwithin, -⟩ := pass_spec (P := P) hpass
      obtain ⟨hfills', hwithin', hsettled⟩ := ih h
      exact ⟨hfills.trans hfills',
        fun hP ha => hwithin' (hP.of_fills hfills) (hwithin hP ha), hsettled⟩
  | case3 a n a' hpass =>
      obtain ⟨hfills, hwithin, hsettled⟩ := pass_spec (P := P) hpass
      obtain ⟨-, rfl, hsettled⟩ := hsettled rfl
      cases h
      refine ⟨⟨hfills.blank, hfills.item⟩, hwithin, ?_⟩
      intro r item hitem
      exact hsettled r (mem_places hitem) item hitem

/-- There is an item at a place. -/
def Occupied (a : Automaton) (r : ItemRef) : Prop :=
  ∃ item, a.item r = .ok item

/-- All links lead to items. -/
def WellLinked (a : Automaton) : Prop :=
  ∀ ⦃r : ItemRef⦄ ⦃item : Item⦄, a.item r = .ok item → ∀ r' ∈ item.links, a.Occupied r'

instance (a : Automaton) (r : ItemRef) : Decidable (a.Occupied r) :=
  decidable_of_iff ((a.item r).toOption.isSome = true) <| by
    simp only [Option.isSome_iff_exists, toOption_eq_some, Occupied]

theorem wellLinked_iff : a.WellLinked ↔ ∀ r ∈ a.places, ∀ item ∈ (a.item r).toOption,
    ∀ r' ∈ item.links, a.Occupied r' := by
  simp only [Option.mem_def, toOption_eq_some]
  exact ⟨fun h r _ item hitem => h hitem, fun h r item hitem => h r (mem_places hitem) item hitem⟩

instance (a : Automaton) : Decidable a.WellLinked :=
  decidable_of_iff' _ wellLinked_iff

-- With more states than numbers, a place may stand for a state that has fewer items.
theorem occupied_of_mem_places (hsize : a.states.size ≤ 65536) {r : ItemRef} (h : r ∈ a.places) :
    a.Occupied r := by
  unfold places at h
  obtain ⟨⟨q, position⟩, hq, hr⟩ := List.mem_flatMap.mp h
  rw [List.mem_zipIdx_iff_getElem?, Array.getElem?_toList] at hq
  obtain ⟨slot, hslot, rfl⟩ := List.mem_map.mp hr
  have hposition : position < a.states.size := (Array.getElem?_eq_some_iff.mp hq).1
  have hindex : (Ident.truncate .state position).index = position :=
    Ident.index_truncate (hposition.trans_le hsize)
  exact ⟨_, item_eq_ok.mpr
    ⟨q, hindex.symm ▸ hq, Array.getElem?_eq_getElem (List.mem_range.mp hslot)⟩⟩

theorem Fills.size_eq (h : a.Fills b) : b.states.size = a.states.size := by
  simpa [Automaton.blank] using congrArg (·.states.size) h.blank

theorem Fills.occupied (hab : a.Fills b) {r : ItemRef} (h : a.Occupied r) : b.Occupied r := by
  obtain ⟨item, hitem⟩ := h
  exact (hab.item hitem).imp fun _ hitem' => hitem'.1

theorem WellLinked.of_fills (h : a.WellLinked) (hab : a.Fills b) : b.WellLinked := by
  intro r item' hitem' r' hr'
  obtain ⟨item, hitem, -, hlinks, -⟩ := hab.of_item hitem'
  exact hab.occupied (h hitem r' (hlinks ▸ hr'))

theorem pour_total (lookahead : TerminalSet) {targets : List ItemRef} (grown : List ItemRef)
    (h : ∀ r ∈ targets, a.Occupied r) :
    ∃ grown' b, pour lookahead targets a grown = ⟨.ok grown', b⟩ ∧
      ∀ r ∈ grown', r ∈ grown ∨ r ∈ targets := by
  induction targets generalizing a grown with
  | nil => exact ⟨grown, a, rfl, fun _ hr => .inl hr⟩
  | cons r targets ih =>
      obtain ⟨⟨item, hitem⟩, htargets⟩ := List.forall_mem_cons.mp h
      unfold pour
      simp only [hitem]
      split
      · have hfills : a.Fills (a.setLookahead r (item.lookahead.absorb lookahead).1) :=
          fills_setLookahead hitem fun t ht => by simp [ht]
        obtain ⟨grown', b, hpour, hgrown⟩ :=
          ih (r :: grown) fun r' hr' => hfills.occupied (htargets r' hr')
        refine ⟨grown', b, hpour, fun r' hr' => ?_⟩
        rcases hgrown r' hr' with hr' | hr'
        · exact (List.mem_cons.mp hr').elim (fun e => .inr (e ▸ List.mem_cons_self)) .inl
        · exact .inr (List.mem_cons_of_mem r hr')
      · obtain ⟨grown', b, hpour, hgrown⟩ := ih grown htargets
        exact ⟨grown', b, hpour, fun r' hr' => (hgrown r' hr').imp_right (List.mem_cons_of_mem r)⟩

theorem flow_total (changed : Bool) {stack : List ItemRef} (ha : a.WellLinked)
    (h : ∀ r ∈ stack, a.Occupied r) : ∃ changed' b, flow a changed stack = ⟨.ok changed', b⟩ := by
  fun_induction flow a changed stack with
  | case1 a changed => exact ⟨changed, a, rfl⟩
  | case2 a changed r stack e hitem =>
      obtain ⟨item, hitem'⟩ := h r List.mem_cons_self
      rw [hitem'] at hitem
      cases hitem
  | case3 a changed r stack item hitem e a' hpour =>
      obtain ⟨grown, b, hpour', -⟩ := pour_total item.lookahead [] (ha hitem)
      rw [hpour'] at hpour
      cases hpour
  | case4 a changed r stack item hitem grown a' hpour ih =>
      have hfills := (pour_spec (P := fun _ _ => True) hpour).1
      obtain ⟨grown', b, hpour', hgrown⟩ := pour_total item.lookahead [] (ha hitem)
      rw [hpour', Attempt.mk.injEq, Except.ok.injEq] at hpour
      obtain ⟨rfl, rfl⟩ := hpour
      refine ih (ha.of_fills hfills) fun r' hr' => hfills.occupied ?_
      rcases List.mem_append.mp hr' with hr' | hr'
      · exact ha hitem r' ((hgrown r' hr').resolve_left List.not_mem_nil)
      · exact h r' (List.mem_cons_of_mem r hr')

theorem pass_total (changed : Bool) {places : List ItemRef} (ha : a.WellLinked)
    (h : ∀ r ∈ places, a.Occupied r) :
    ∃ changed' b, pass places a changed = ⟨.ok changed', b⟩ := by
  induction places generalizing a changed with
  | nil => exact ⟨changed, a, rfl⟩
  | cons r places ih =>
      obtain ⟨hr, hplaces⟩ := List.forall_mem_cons.mp h
      obtain ⟨changed₁, a', hflow⟩ :=
        flow_total changed ha (List.forall_mem_singleton.mpr hr)
      have hfills := (flow_spec (P := fun _ _ => True) hflow).1
      unfold pass
      rw [hflow]
      exact ih changed₁ (ha.of_fills hfills) fun r' hr' => hfills.occupied (hplaces r' hr')

/-- Lookaheads can flow wherever links lead to items and all states have numbers of their own,
whatever else holds of the automaton. -/
theorem propagate_total (hsize : a.states.size ≤ 65536) (ha : a.WellLinked) :
    ∃ n b, a.propagate = ⟨.ok n, b⟩ := by
  unfold propagate
  fun_induction passFrom a 0 with
  | case1 a n e a' hpass =>
      obtain ⟨changed, b, hpass'⟩ :=
        pass_total false ha fun r hr => occupied_of_mem_places hsize hr
      rw [hpass'] at hpass
      cases hpass
  | case2 a n a' hpass ih =>
      have hfills := (pass_spec (P := fun _ _ => True) hpass).1
      exact ih (hfills.size_eq.trans_le hsize) (ha.of_fills hfills)
  | case3 a n a' hpass => exact ⟨_, _, rfl⟩

theorem Linked.wellLinked {g : Grammar} (ha : a.Linked g) : a.WellLinked := by
  intro r item hitem r' hr'
  obtain ⟨q, hq, hslot⟩ := item_eq_ok.mp hitem
  obtain ⟨target, htarget, -⟩ := ha.link hq hslot hr'
  exact ⟨target, htarget⟩

theorem build_eq_ok {g : Grammar} : build g = .ok c ↔
    ∃ a b passes, reach g = .ok a ∧ a.link g = .ok b ∧ b.propagate = ⟨.ok passes, c⟩ := by
  unfold build machine
  rcases hreach : reach g with e | a
  · simp [bind, Except.bind]
  · rcases hlink : a.link g with e | b
    · simp [bind, Except.bind, hlink]
    · rcases hpropagate : b.propagate with ⟨e | passes, c'⟩ <;>
        simp [bind, Except.bind, hlink, hpropagate]

end Lalr.Automaton
