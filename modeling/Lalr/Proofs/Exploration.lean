import Lalr.Proofs.States

namespace Lalr

open Automaton (startItems)

/-- The transitions of a state are there, as far as their targets own the right kernels. -/
structure State.Connected (g : Grammar) (kernels : KernelMap) (q : State) : Prop where
  nodup : (q.transitions.map (·.1)).Nodup
  target : ∀ {symbol : Symbol} {r : StateId}, (symbol, r) ∈ q.transitions →
    ∃ k, kernels.find? k = some r ∧ ∀ c, c ∈ k.cores ↔ g.Shifted q.items.cores symbol c
  expected : ∀ symbol, symbol ∈ q.transitions.map (·.1) ↔
    ∃ c ∈ q.items.cores, ∃ rest, g.after c = symbol :: rest

variable {g : Grammar}

namespace KernelMap

theorem find?_empty (k : Kernel) : empty.find? k = none := by
  rw [find?_eq]
  rfl

theorem find?_insert {m : KernelMap} {k k' : Kernel} {owner : StateId} :
    (m.insert k owner).find? k' = if k = k' then some owner else m.find? k' := by
  rw [find?_eq, find?_eq]
  unfold ownerIn insert
  by_cases h : k = k' <;> simp [h]

def KeptIn (m m' : KernelMap) : Prop :=
  ∀ ⦃k : Kernel⦄ ⦃r : StateId⦄, m.find? k = some r → m'.find? k = some r

theorem KeptIn.trans {m m' m'' : KernelMap} (h : m.KeptIn m') (h' : m'.KeptIn m'') :
    m.KeptIn m'' :=
  fun _ _ hk => h' (h hk)

end KernelMap

theorem State.Connected.mono {m m' : KernelMap} {q : State} (h : q.Connected g m)
    (hm : m.KeptIn m') : q.Connected g m' := by
  refine ⟨h.nodup, ?_, h.expected⟩
  intro symbol r hr
  obtain ⟨k, hk, hcores⟩ := h.target hr
  exact ⟨k, hm hk, hcores⟩

namespace Automaton

theorem state_eq_ok {a : Automaton} {r : StateId} {q : State} :
    a.state r = .ok q ↔ a.states[r.index]? = some q := by
  unfold Automaton.state
  cases a.states[r.index]? <;> simp

/-- What holds of an automaton while its states are being found. -/
structure Sound (g : Grammar) (a : Automaton) : Prop where
  id : ∀ {i : Nat} {q : State}, a.states[i]? = some q → q.id.index = i
  canonical : ∀ {i : Nat} {q : State}, a.states[i]? = some q → q.Canonical g
  valid : ∀ {i : Nat} {q : State}, a.states[i]? = some q →
    ∃ γ, ∀ c, c ∈ q.items.cores ↔ g.ValidItem γ c
  kernels : ∀ {k : Kernel} {r : StateId}, a.kernels.find? k = some r ↔
    ∃ q, a.states[r.index]? = some q ∧ q.kernel = k

/-- `b` has the states of `a`, in the same places and with the same kernels, and perhaps more. -/
structure Extends (a b : Automaton) : Prop where
  states : ∀ {i : Nat} {q : State}, a.states[i]? = some q → b.states[i]? = some q
  kernels : a.kernels.KeptIn b.kernels

theorem Extends.refl (a : Automaton) : a.Extends a := ⟨id, fun _ _ hk => hk⟩

theorem Extends.trans {a b c : Automaton} (h : a.Extends b) (h' : b.Extends c) : a.Extends c :=
  ⟨fun hq => h'.states (h.states hq), h.kernels.trans h'.kernels⟩

/-- The set that a state is closed from: that of the start state, or one of bare items with the mark
moved. -/
def IsBase (s : ItemSet) : Prop :=
  s = startItems ∨ s.Bare ∧ ∀ c ∈ s.cores, c.dot ≠ 0

theorem startItems_items : startItems.items = #[.initial .start (.single TerminalId.eof)] := by
  rfl

theorem cores_startItems : startItems.cores = [⟨.start, 0⟩] := by
  rw [ItemSet.cores, startItems_items]
  rfl

theorem IsBase.justified {s : ItemSet} (h : IsBase s) {owner : StateId} {core : ItemCore → Prop}
    {la : ItemCore → TerminalId → Prop} (hcore : ∀ c ∈ s.cores, core c)
    (hstart : ⟨.start, 0⟩ ∈ s.cores → la ⟨.start, 0⟩ .eof) :
    s.Justified g owner core la := by
  refine ⟨fun hitem => hcore _ (ItemSet.mem_cores.mpr ⟨_, _, hitem, rfl⟩), ?_, ?_⟩
  · intro slot item t hitem ht
    rcases h with rfl | ⟨hbare, -⟩
    · rw [startItems_items, List.getElem?_toArray, List.getElem?_singleton] at hitem
      split at hitem
      · cases hitem
        obtain rfl : t = TerminalId.eof := IdentSet.mem_single.mp ht
        exact hstart (by simp [cores_startItems])
      · cases hitem
    · exact absurd ((hbare hitem).1 ▸ ht) (IdentSet.not_mem_empty t)
  · intro slot item r hitem hr
    rcases h with rfl | ⟨hbare, -⟩
    · rw [startItems_items, List.getElem?_toArray, List.getElem?_singleton] at hitem
      split at hitem
      · cases hitem
        simp [Item.initial] at hr
      · cases hitem
    · simp [(hbare hitem).2] at hr

theorem canonical_of_close (hg : g.WellFormed) {s closed : ItemSet} {owner : StateId}
    (hs : IsBase s) (hne : s.kernel.isEmpty = false) (h : s.close g owner = ⟨.ok (), closed⟩)
    (transitions : List (Symbol × StateId)) :
    State.Canonical g ⟨owner, closed, s.kernel.cores.length, transitions⟩ ∧
      State.kernel ⟨owner, closed, s.kernel.cores.length, transitions⟩ = s.kernel := by
  obtain ⟨hgrows, ⟨extra, hextra, hdots⟩, hexpanded⟩ := ItemSet.close_expands hg h
  have hlength : s.kernel.cores.length = s.cores.length := Kernel.length_ofCores s.nodup
  have hkernel : State.kernel ⟨owner, closed, s.kernel.cores.length, transitions⟩ =
      s.kernel := by
    unfold State.kernel ItemSet.kernel
    simp only [hextra]
    rw [show (Kernel.ofCores s.cores).cores.length = s.cores.length from hlength,
      List.take_left']
    rfl
  have hmem : ∀ c, c ∈ s.kernel.cores ↔ c ∈ s.cores := fun c => Kernel.mem_ofCores
  refine ⟨⟨hexpanded, ?_, ?_, ?_, ?_, ?_, ?_⟩, hkernel⟩
  · intro c hc
    simp only [hextra, hlength, List.drop_left] at hc
    exact hdots c hc
  · rw [hlength, hextra, List.length_append]
    exact Nat.le_add_right _ _
  · intro core la hpredictive hcore hstart
    rw [hkernel] at hcore hstart
    exact ItemSet.close_justified hg hpredictive h
      (hs.justified (fun c hc => hcore c ((hmem c).mpr hc)) fun hc => hstart ((hmem _).mpr hc))
  · rw [hkernel]
    rcases hs with rfl | ⟨-, hdot⟩
    · exact .inl rfl
    · exact .inr fun c hc => hdot c ((hmem c).mp hc)
  · rw [hkernel]
    intro hnil
    simp [Kernel.isEmpty, hnil] at hne
  · rw [hkernel]
    intro hmemStart
    rcases hs with rfl | ⟨-, hdot⟩
    · have hfirst : startItems.items[0]? = some (.initial .start (.single TerminalId.eof)) := by
        rw [startItems_items]
        rfl
      obtain ⟨item, hitem, hcore, hla, -⟩ := hgrows hfirst
      exact ⟨0, item, hitem, hcore, hla _ (IdentSet.mem_single.mpr rfl)⟩
    · exact absurd rfl (hdot _ ((hmem _).mp hmemStart))

theorem nextState_eq_ok {a : Automaton} {r : StateId} (h : a.nextState = .ok r) :
    r.index = a.states.size := by
  unfold nextState at h
  split at h
  · cases h
  · rename_i hid
    cases h
    exact Ident.ofNat?_eq_some.mp hid

theorem addState_eq_ok {a b : Automaton} {kernel : Kernel} {items : ItemSet} {r : StateId}
    (h : a.addState kernel items = .ok (b, r)) :
    kernel.isEmpty = false ∧ r.index = a.states.size ∧
      b.states = a.states.push ⟨r, items, kernel.cores.length, []⟩ ∧
      b.kernels = a.kernels.insert kernel r := by
  unfold addState at h
  split at h
  · cases h
  · rename_i hempty
    split at h
    · cases h
    · split at h
      · cases h
      · rename_i hnext
        cases h
        rw [Bool.or_eq_true, not_or] at hempty
        exact ⟨Bool.eq_false_iff.mpr hempty.1, nextState_eq_ok hnext, rfl, rfl⟩

theorem enter_cases {a b : Automaton} {s : ItemSet} {r : StateId} {isNew : Bool}
    (h : a.enter g s = .ok (b, r, isNew)) :
    (b = a ∧ a.kernels.find? s.kernel = some r) ∨
      ∃ closed, isNew = true ∧ a.kernels.find? s.kernel = none ∧ s.kernel.isEmpty = false ∧
        s.close g r = ⟨.ok (), closed⟩ ∧ r.index = a.states.size ∧
        b.states = a.states.push ⟨r, closed, s.kernel.cores.length, []⟩ ∧
        b.kernels = a.kernels.insert s.kernel r := by
  unfold Automaton.enter at h
  simp only at h
  split at h
  · rename_i existing hfind
    cases h
    exact .inl ⟨rfl, hfind⟩
  · rename_i hfresh
    split at h
    · cases h
    · rename_i owner hnext
      split at h
      · cases h
      · rename_i closed hclose
        split at h
        · cases h
        · rename_i b' r' hadd
          cases h
          obtain ⟨hne, hr, hstates, hkernels⟩ := addState_eq_ok hadd
          obtain rfl : owner = r := Ident.ext_index ((nextState_eq_ok hnext).trans hr.symm)
          exact .inr ⟨closed, rfl, hfresh, hne, hclose, hr, hstates, hkernels⟩

section Push

variable {a b : Automaton} {new : State} (hstates : b.states = a.states.push new)

include hstates

theorem getElem?_of_push (hid : new.id.index = a.states.size) {i : Nat} {q : State}
    (hq : b.states[i]? = some q) :
    a.states[i]? = some q ∨ i = new.id.index ∧ q = new := by
  rw [hstates, Array.getElem?_push] at hq
  split at hq
  · rename_i hi
    cases hq
    exact .inr ⟨hi.trans hid.symm, rfl⟩
  · exact .inl hq

variable (hfresh : a.kernels.find? new.kernel = none)
  (hkernels : b.kernels = a.kernels.insert new.kernel new.id)

include hfresh hkernels

theorem extends_push : a.Extends b := by
  constructor
  · intro i q hq
    have hlt := (Array.getElem?_eq_some_iff.mp hq).1
    rw [hstates, Array.getElem?_push, if_neg (Nat.ne_of_lt hlt), hq]
  · intro k r hk
    rw [hkernels, KernelMap.find?_insert, if_neg, hk]
    rintro rfl
    rw [hfresh] at hk
    cases hk

theorem Sound.push (ha : a.Sound g) (hid : new.id.index = a.states.size)
    (hcanonical : new.Canonical g) {γ : List Symbol}
    (hvalid : ∀ c, c ∈ new.items.cores ↔ g.ValidItem γ c) : b.Sound g := by
  have hstate {i : Nat} {q : State} := getElem?_of_push hstates hid (i := i) (q := q)
  have hextends := extends_push hstates hfresh hkernels
  have hnew : b.states[new.id.index]? = some new := by
    rw [hstates, hid, Array.getElem?_push_size]
  refine ⟨?_, ?_, ?_, ?_⟩
  · intro i q hq
    rcases hstate hq with hq | ⟨rfl, rfl⟩
    · exact ha.id hq
    · rfl
  · intro i q hq
    rcases hstate hq with hq | ⟨-, rfl⟩
    · exact ha.canonical hq
    · exact hcanonical
  · intro i q hq
    rcases hstate hq with hq | ⟨-, rfl⟩
    · exact ha.valid hq
    · exact ⟨γ, hvalid⟩
  · intro k r
    rw [hkernels, KernelMap.find?_insert]
    split
    · rename_i hk
      rw [Option.some.injEq]
      constructor
      · rintro rfl
        exact ⟨new, hnew, hk⟩
      · rintro ⟨q, hq, hk'⟩
        rcases hstate hq with hq | ⟨hi, -⟩
        · have hfound := ha.kernels.mpr ⟨q, hq, hk'.trans hk.symm⟩
          rw [hfresh] at hfound
          cases hfound
        · exact Ident.ext_index hi.symm
    · rename_i hk
      rw [ha.kernels]
      constructor
      · rintro ⟨q, hq, hk'⟩
        exact ⟨q, hextends.states hq, hk'⟩
      · rintro ⟨q, hq, hk'⟩
        rcases hstate hq with hq | ⟨-, rfl⟩
        · exact ⟨q, hq, hk'⟩
        · exact absurd hk' hk

end Push

/-- Entering a state keeps an automaton sound.  Afterwards the kernel belongs to the state entered,
and no state is new but this one. -/
theorem Sound.enter (hg : g.WellFormed) {a b : Automaton} (ha : a.Sound g) {s : ItemSet}
    (hs : IsBase s) {γ : List Symbol} (hvalid : ∀ c ∈ s.cores, g.ValidItem γ c)
    (hall : ∀ c, g.ValidItem γ c → (c.dot ≠ 0 ∨ γ = [] ∧ c = ⟨.start, 0⟩) → c ∈ s.cores)
    {r : StateId} {isNew : Bool} (h : a.enter g s = .ok (b, r, isNew)) :
    b.Sound g ∧ a.Extends b ∧ b.kernels.find? s.kernel = some r ∧
      ∀ {i : Nat} {q : State}, b.states[i]? = some q →
        a.states[i]? = some q ∨ isNew = true ∧ q.id = r := by
  rcases enter_cases h with ⟨rfl, hfind⟩ |
    ⟨closed, hnew, hfresh, hne, hclose, hr, hstates, hkernels⟩
  · exact ⟨ha, .refl b, hfind, .inl⟩
  · obtain ⟨hcanonical, hkernel⟩ := canonical_of_close hg hs hne hclose []
    have hcores : ∀ c, c ∈ closed.cores ↔ g.ValidItem γ c := by
      intro c
      constructor
      · refine hcanonical.valid_of_mem_cores fun c hc => hvalid c ?_
        rw [hkernel] at hc
        exact Kernel.mem_ofCores.mp hc
      · refine hcanonical.mem_cores_of_valid fun c hc hcase => ?_
        rw [hkernel]
        exact Kernel.mem_ofCores.mpr (hall c hc hcase)
    have hfound : b.kernels.find? s.kernel = some r := by
      rw [hkernels, KernelMap.find?_insert, if_pos rfl]
    rw [← hkernel] at hfresh hkernels
    refine ⟨ha.push hstates hfresh hkernels hr hcanonical hcores,
      extends_push hstates hfresh hkernels, hfound, fun hq => ?_⟩
    rcases getElem?_of_push hstates hr hq with hq | ⟨-, rfl⟩
    · exact .inl hq
    · exact .inr ⟨hnew, rfl⟩

theorem base_of_shiftOver {items : List Item} {γ : List Symbol} {symbol : Symbol} {s : ItemSet}
    (hitems : ∀ c, c ∈ items.map (·.core) ↔ g.ValidItem γ c)
    (h : ItemSet.shiftOver g symbol ∅ items = .ok s) :
    IsBase s ∧ (∀ c ∈ s.cores, g.ValidItem (γ ++ [symbol]) c) ∧
      (∀ c, g.ValidItem (γ ++ [symbol]) c → c.dot ≠ 0 → c ∈ s.cores) ∧
      ∀ c, c ∈ s.cores ↔ g.Shifted (items.map (·.core)) symbol c := by
  obtain ⟨hbare, hmem⟩ := ItemSet.shiftOver_ok h ItemSet.bare_empty
  have hshifted : ∀ c, c ∈ s.cores ↔ g.Shifted (items.map (·.core)) symbol c := by
    intro c
    rw [hmem]
    exact or_iff_right (List.not_mem_nil (a := c))
  refine ⟨.inr ⟨hbare, ?_⟩, ?_, ?_, hshifted⟩
  · intro c hc
    obtain ⟨d, -, rest, -, rfl⟩ := (hshifted c).mp hc
    exact Nat.succ_ne_zero _
  · intro c hc
    obtain ⟨d, hd, rest, hrest, rfl⟩ := (hshifted c).mp hc
    exact .advance ((hitems d).mp hd) hrest
  · intro c hc hdot
    obtain ⟨d, rest, rfl, hd, hrest⟩ := hc.retreat hdot
    exact (hshifted _).mpr ⟨d, (hitems d).mpr hd, rest, hrest, rfl⟩

theorem Sound.enterAll (hg : g.WellFormed) {items : List Item} {γ : List Symbol}
    (hitems : ∀ c, c ∈ items.map (·.core) ↔ g.ValidItem γ c) {symbols : List Symbol}
    {a b : Automaton} (ha : a.Sound g) {before after : Array (Symbol × StateId)}
    {added added' : List StateId}
    (h : Automaton.enterAll g items symbols a before added = .ok (b, after, added')) :
    b.Sound g ∧ a.Extends b ∧ after.toList.map (·.1) = before.toList.map (·.1) ++ symbols ∧
      (∀ symbol r, (symbol, r) ∈ after → (symbol, r) ∈ before ∨ ∃ k, b.kernels.find? k = some r ∧
        ∀ c, c ∈ k.cores ↔ g.Shifted (items.map (·.core)) symbol c) ∧
      (∀ r ∈ added, r ∈ added') ∧
      (∀ r ∈ added', r ∈ added ∨ ∃ q, b.states[r.index]? = some q) ∧
      ∀ {i : Nat} {q : State}, b.states[i]? = some q → a.states[i]? = some q ∨ q.id ∈ added' := by
  induction symbols generalizing a before added with
  | nil =>
      cases h
      exact ⟨ha, .refl _, by simp, fun _ _ hr => .inl hr, fun _ hr => hr, fun _ hr => .inl hr, .inl⟩
  | cons symbol symbols ih =>
      unfold Automaton.enterAll at h
      split at h
      · cases h
      · rename_i s hshift
        split at h
        · cases h
        · rename_i a' target isNew henter
          obtain ⟨hbase, hvalid, hall, hmem⟩ := base_of_shiftOver hitems hshift
          obtain ⟨ha', hextends, hfind, hnew⟩ := ha.enter hg hbase hvalid
            (fun c hc hcase => hall c hc (hcase.resolve_right fun e => by simp at e)) henter
          obtain ⟨hb, hextends', hfirst, htarget, hadded, hfound, hstates⟩ := ih ha' h
          refine ⟨hb, hextends.trans hextends', ?_, ?_, ?_, ?_, ?_⟩
          · rw [hfirst]
            simp
          · intro x r hr
            rcases htarget x r hr with hr | hr
            · rcases Array.mem_push.mp hr with hr | hr
              · exact .inl hr
              · cases hr
                exact .inr ⟨s.kernel, hextends'.kernels hfind,
                  fun c => Kernel.mem_ofCores.trans (hmem c)⟩
            · exact .inr hr
          · intro r hr
            apply hadded
            split
            · exact List.mem_cons_of_mem _ hr
            · exact hr
          · intro r hr
            obtain ⟨q, hq, -⟩ := ha'.kernels.mp hfind
            rcases hfound r hr with hr | hr
            · split at hr
              · rcases List.mem_cons.mp hr with rfl | hr
                · exact .inr ⟨q, hextends'.states hq⟩
                · exact .inl hr
              · exact .inl hr
            · exact .inr hr
          · intro i q hq
            rcases hstates hq with hq | hq
            · rcases hnew hq with hq | ⟨rfl, rfl⟩
              · exact .inl hq
              · exact .inr (hadded _ (by simp))
            · exact .inr hq

theorem getElem?_setTransitions {a : Automaton} {r : StateId}
    {transitions : List (Symbol × StateId)} {i : Nat} :
    (a.setTransitions r transitions).states[i]? =
      if r.index = i then a.states[i]?.map fun q => { q with transitions } else a.states[i]? := by
  rw [setTransitions, Array.getElem?_modify]

theorem exists_of_setTransitions {a : Automaton} {r : StateId}
    {transitions : List (Symbol × StateId)} {i : Nat} {q : State}
    (h : (a.setTransitions r transitions).states[i]? = some q) :
    ∃ q', a.states[i]? = some q' ∧ (r.index ≠ i ∧ q = q' ∨
      r.index = i ∧ q = { q' with transitions }) := by
  rw [getElem?_setTransitions] at h
  split at h
  · rename_i hi
    obtain ⟨q', hq', rfl⟩ := Option.map_eq_some_iff.mp h
    exact ⟨q', hq', .inr ⟨hi, rfl⟩⟩
  · rename_i hi
    exact ⟨q, h, .inl ⟨hi, rfl⟩⟩

theorem Sound.setTransitions {a : Automaton} (ha : a.Sound g) (r : StateId)
    (transitions : List (Symbol × StateId)) : (a.setTransitions r transitions).Sound g := by
  refine ⟨?_, ?_, ?_, ?_⟩
  · intro i q hq
    obtain ⟨q', hq', ⟨-, rfl⟩ | ⟨-, rfl⟩⟩ := exists_of_setTransitions hq
    · exact ha.id hq'
    · exact ha.id (q := q') hq'
  · intro i q hq
    obtain ⟨q', hq', ⟨-, rfl⟩ | ⟨-, rfl⟩⟩ := exists_of_setTransitions hq
    · exact ha.canonical hq'
    · obtain ⟨hexpanded, hbehind, hsize, hjustified, hdot, hne, heof⟩ := ha.canonical hq'
      exact ⟨hexpanded, hbehind, hsize, hjustified, hdot, hne, heof⟩
  · intro i q hq
    obtain ⟨q', hq', ⟨-, rfl⟩ | ⟨-, rfl⟩⟩ := exists_of_setTransitions hq
    · exact ha.valid hq'
    · exact ha.valid (q := q') hq'
  · intro k s
    refine ha.kernels.trans ⟨?_, ?_⟩
    · rintro ⟨q, hq, hk⟩
      rw [getElem?_setTransitions, hq]
      split
      · exact ⟨_, rfl, hk⟩
      · exact ⟨q, rfl, hk⟩
    · rintro ⟨q, hq, hk⟩
      obtain ⟨q', hq', ⟨-, rfl⟩ | ⟨-, rfl⟩⟩ := exists_of_setTransitions hq
      · exact ⟨_, hq', hk⟩
      · exact ⟨_, hq', hk⟩

theorem Sound.expand (hg : g.WellFormed) {a b : Automaton} (ha : a.Sound g) {r : StateId}
    {added : List StateId} (h : a.expand g r = .ok (b, added)) :
    b.Sound g ∧ a.kernels.KeptIn b.kernels ∧ (∀ s ∈ added, ∃ q, b.states[s.index]? = some q) ∧
      ∀ {i : Nat} {q : State}, b.states[i]? = some q →
        r.index ≠ i ∧ a.states[i]? = some q ∨ q.id ∈ added ∨ q.Connected g b.kernels := by
  unfold Automaton.expand at h
  split at h
  · cases h
  · rename_i q₀ hq₀
    rw [state_eq_ok] at hq₀
    simp only at h
    split at h
    · cases h
    · rename_i symbols hsymbols
      split at h
      · cases h
      · rename_i a' transitions added' hall
        cases h
        obtain ⟨hnodup, hexpected⟩ := ItemSet.expected_ok hsymbols List.nodup_nil
        obtain ⟨γ, hγ⟩ := ha.valid hq₀
        obtain ⟨ha', hextends, hfirst, htarget, -, hfound, hstates⟩ := ha.enterAll hg hγ hall
        refine ⟨ha'.setTransitions r _, hextends.kernels, ?_, ?_⟩
        · intro s hs
          obtain ⟨q, hq⟩ := (hfound s hs).resolve_left List.not_mem_nil
          rw [getElem?_setTransitions, hq]
          split
          · exact ⟨_, rfl⟩
          · exact ⟨q, rfl⟩
        intro i q hq
        obtain ⟨q', hq', ⟨hi, rfl⟩ | ⟨rfl, rfl⟩⟩ := exists_of_setTransitions hq
        · rcases hstates hq' with hq' | hq'
          · exact .inl ⟨hi, hq'⟩
          · exact .inr (.inl hq')
        · -- The expanded state is the one that was there before.
          rw [hextends.states hq₀, Option.some.injEq] at hq'
          subst hq'
          refine .inr (.inr ⟨?_, ?_, ?_⟩)
          · rw [hfirst]
            exact hnodup
          · intro symbol s hs
            rcases htarget symbol s (Array.mem_toList_iff.mp hs) with hs | hs
            · simp at hs
            · exact hs
          · intro symbol
            rw [hfirst]
            apply (hexpected symbol).trans
            simp only [List.not_mem_nil, false_or, ItemSet.cores, List.mem_map,
              exists_exists_and_eq_and]

theorem Sound.explore (hg : g.WellFormed) {a b : Automaton} {pending : List StateId}
    (ha : a.Sound g) (h : a.explore g pending = .ok b)
    (hpending : ∀ {i : Nat} {q : State}, a.states[i]? = some q →
      q.id ∈ pending ∨ q.Connected g a.kernels) :
    b.Sound g ∧ a.kernels.KeptIn b.kernels ∧
      ∀ {i : Nat} {q : State}, b.states[i]? = some q → q.Connected g b.kernels := by
  fun_induction Automaton.explore g a pending with
  | case1 a =>
      cases h
      exact ⟨ha, fun _ _ hk => hk, fun hq => (hpending hq).resolve_left List.not_mem_nil⟩
  | case2 a r pending e hexpand => cases h
  | case3 a r pending a' added hexpand ih =>
      obtain ⟨ha', hkept, -, hstates⟩ := ha.expand hg hexpand
      obtain ⟨hb, hkept', hconnected⟩ := ih ha' h fun {i q} hq => by
        rcases hstates hq with ⟨hi, hq⟩ | hadded | hq
        · rcases hpending hq with hmem | hq'
          · rcases List.mem_cons.mp hmem with heq | hmem
            · exact absurd ((congrArg Ident.index heq).symm.trans (ha.id hq)) hi
            · exact .inl (List.mem_append_right _ hmem)
          · exact .inr (hq'.mono hkept)
        · exact .inl (List.mem_append_left _ hadded)
        · exact .inr hq
      exact ⟨hb, hkept.trans hkept', hconnected⟩

theorem sound_empty : empty.Sound g := by
  refine ⟨?_, ?_, ?_, ?_⟩
  · intro i q hq
    simp [empty] at hq
  · intro i q hq
    simp [empty] at hq
  · intro i q hq
    simp [empty] at hq
  · intro k r
    simp [empty, KernelMap.find?_empty]

/-- The automaton that exploration ends with: its states are connected, and the start state comes
first. -/
structure Explored (g : Grammar) (a : Automaton) : Prop extends Sound g a where
  connected : ∀ {i : Nat} {q : State}, a.states[i]? = some q → q.Connected g a.kernels
  start : a.kernels.find? startItems.kernel = some .start

theorem sound_start (hg : g.WellFormed) {a : Automaton} {start : StateId} {isNew : Bool}
    (h : empty.enter g startItems = .ok (a, start, isNew)) :
    a.Sound g ∧ a.kernels.find? startItems.kernel = some start ∧
      ∀ {i : Nat} {q : State}, a.states[i]? = some q → q.id = start := by
  have hvalid : ∀ c ∈ startItems.cores, g.ValidItem [] c := by
    intro c hc
    rw [cores_startItems, List.mem_singleton] at hc
    exact hc ▸ .start
  have hall : ∀ c, g.ValidItem [] c → (c.dot ≠ 0 ∨ ([] : List Symbol) = [] ∧ c = ⟨.start, 0⟩) →
      c ∈ startItems.cores := by
    rintro c hc (hdot | ⟨-, rfl⟩)
    · exact absurd (Grammar.dot_eq_zero_of_valid_nil hc) hdot
    · simp [cores_startItems]
  obtain ⟨ha, -, hfind, hnew⟩ := sound_empty.enter hg (.inl rfl) hvalid hall h
  refine ⟨ha, hfind, fun hq => ?_⟩
  rcases hnew hq with hq | ⟨-, hq⟩
  · simp [empty] at hq
  · exact hq

theorem explored_of_reach (hg : g.WellFormed) {a : Automaton} (h : reach g = .ok a) :
    a.Explored g := by
  unfold reach at h
  split at h
  · cases h
  · rename_i a₀ start isNew henter
    obtain ⟨ha₀, hfind, hid⟩ := sound_start hg henter
    -- All states there are have the number of the start state, and the first one has number 0.
    have hstart : start = .start := by
      obtain ⟨q, hq, -⟩ := ha₀.kernels.mp hfind
      have hlt : 0 < a₀.states.size :=
        Nat.lt_of_le_of_lt (Nat.zero_le _) (Array.getElem?_eq_some_iff.mp hq).1
      have hfirst := Array.getElem?_eq_getElem hlt
      exact Ident.ext_index (hid hfirst ▸ ha₀.id hfirst)
    obtain ⟨ha, hkept, hconnected⟩ :=
      ha₀.explore hg h fun hq => .inl (List.mem_singleton.mpr (hid hq))
    exact ⟨ha, hconnected, hstart ▸ hkept hfind⟩

end Automaton

end Lalr
