import Lalr.Automaton.Propagation
import Lalr.Proofs.Exploration

namespace Lalr

def Automaton.follow? (a : Automaton) (q : StateId) : List Symbol → Option StateId
  | [] => some q
  | symbol :: symbols =>
    ((a.state? q).bind (·.transition? symbol)).bind fun next => a.follow? next symbols

namespace State

/-- A state holds exactly the items that are valid for a prefix. -/
def Holds (g : Grammar) (γ : List Symbol) (q : State) : Prop :=
  ∀ c, c ∈ q.items.cores ↔ g.ValidItem γ c

/-- All of a state but lookaheads and links. -/
def outline (q : State) : StateId × List ItemCore × List (Symbol × StateId) :=
  (q.id, q.items.cores, q.transitions)

variable {g : Grammar}

theorem Holds.validItem {γ : List Symbol} {q : State} (hγ : q.Holds g γ) {item : Item}
    (hitem : item ∈ q.items.items) : g.ValidItem γ item.core := by
  obtain ⟨slot, hslot⟩ := Array.getElem?_of_mem hitem
  exact (hγ item.core).mp (ItemSet.mem_cores.mpr ⟨slot, item, hslot, rfl⟩)

theorem transition?_eq_some {q : State} (hq : (q.transitions.map (·.1)).Nodup) {symbol : Symbol}
    {r : StateId} : q.transition? symbol = some r ↔ (symbol, r) ∈ q.transitions := by
  unfold transition?
  generalize q.transitions = transitions at hq ⊢
  induction transitions with
  | nil => simp
  | cons entry transitions ih =>
      obtain ⟨x, s⟩ := entry
      obtain ⟨hx, hrest⟩ := List.nodup_cons.mp hq
      rw [List.find?_cons]
      by_cases h : x = symbol
      · subst h
        have hnot : (x, r) ∉ transitions := fun hr => hx (List.mem_map_of_mem (f := (·.1)) hr)
        simp [hnot, eq_comm]
      · simp only [beq_eq_false_iff_ne.mpr h, List.mem_cons, Prod.mk.injEq, Ne.symm h, false_and,
          false_or]
        exact ih hrest

theorem Canonical.mem_kernel_iff {q : State} (hq : q.Canonical g)
    (h : ∀ c ∈ q.kernel.cores, c.dot ≠ 0) {c : ItemCore} :
    c ∈ q.kernel.cores ↔ c ∈ q.items.cores ∧ c.dot ≠ 0 :=
  ⟨fun hc => ⟨mem_cores_of_mem_kernel hc, h c hc⟩, fun ⟨hc, hdot⟩ => hq.mem_kernel_of_dot hc hdot⟩

theorem Canonical.kernel_eq_start {q q' : State} (hq : q.Canonical g) (hq' : q'.Canonical g)
    (h : ∀ c, c ∈ q.items.cores ↔ c ∈ q'.items.cores)
    (hstart : q.kernel = Automaton.startItems.kernel) :
    q'.kernel = Automaton.startItems.kernel := by
  refine hq'.kernel_dot.resolve_right fun hdot => ?_
  obtain ⟨c, hc⟩ := List.exists_mem_of_ne_nil _ hq'.kernel_ne
  have hmem := hq.mem_kernel_of_dot ((h c).mpr (mem_cores_of_mem_kernel hc)) (hdot c hc)
  rw [hstart, ItemSet.kernel, Kernel.mem_ofCores, Automaton.cores_startItems,
    List.mem_singleton] at hmem
  exact hdot c hc (hmem ▸ rfl)

theorem Canonical.kernel_eq {q q' : State} (hq : q.Canonical g) (hq' : q'.Canonical g)
    (h : ∀ c, c ∈ q.items.cores ↔ c ∈ q'.items.cores) : q.kernel = q'.kernel := by
  rcases hq.kernel_dot with hstart | hdot
  · exact hstart.trans (hq.kernel_eq_start hq' h hstart).symm
  · rcases hq'.kernel_dot with hstart' | hdot'
    · exact (hq'.kernel_eq_start hq (fun c => (h c).symm) hstart').trans hstart'.symm
    · apply Kernel.ext_mem
      intro c
      rw [hq.mem_kernel_iff hdot, hq'.mem_kernel_iff hdot', h]

end State

namespace Automaton

variable {g : Grammar} {a : Automaton}

/-- The states of an automaton and the transitions between them are those of the grammar. -/
structure Charted (g : Grammar) (a : Automaton) : Prop where
  id : ∀ {i : Nat} {q : State}, a.states[i]? = some q → q.id.index = i
  occupied : ∀ {i : Nat} {q : State}, a.states[i]? = some q → q.items.cores ≠ []
  holds : ∀ {i : Nat} {q : State}, a.states[i]? = some q → ∃ γ, q.Holds g γ
  unique : ∀ {i j : Nat} {q q' : State} {γ : List Symbol}, a.states[i]? = some q →
    a.states[j]? = some q' → q.Holds g γ → q'.Holds g γ → i = j
  start : ∃ q, a.states[StateId.start.index]? = some q ∧ q.Holds g []
  nodup : ∀ {i : Nat} {q : State}, a.states[i]? = some q → (q.transitions.map (·.1)).Nodup
  expected : ∀ {i : Nat} {q : State}, a.states[i]? = some q → ∀ symbol,
    symbol ∈ q.transitions.map (·.1) ↔ ∃ c ∈ q.items.cores, ∃ rest, g.after c = symbol :: rest
  target : ∀ {i : Nat} {q : State} {symbol : Symbol} {r : StateId}, a.states[i]? = some q →
    (symbol, r) ∈ q.transitions → ∃ q', a.states[r.index]? = some q' ∧
      ∀ γ, q.Holds g γ → q'.Holds g (γ ++ [symbol])

theorem Charted.size_le (ha : a.Charted g) : a.states.size ≤ 65536 := by
  refine Nat.le_of_not_lt fun hlt => ?_
  have hid := ha.id (Array.getElem?_eq_getElem hlt)
  exact absurd hid (Nat.ne_of_lt (Ident.index_lt _))

theorem Explored.holds_start (ha : a.Explored g) :
    ∃ q, a.states[StateId.start.index]? = some q ∧ q.Holds g [] ∧
      q.kernel = startItems.kernel := by
  obtain ⟨q, hq, hkernel⟩ := ha.kernels.mp ha.start
  have hmem : ∀ c, c ∈ q.kernel.cores ↔ c = ⟨.start, 0⟩ := by
    intro c
    rw [hkernel, ItemSet.kernel, Kernel.mem_ofCores, cores_startItems, List.mem_singleton]
  refine ⟨q, hq, fun c => ⟨?_, ?_⟩, hkernel⟩
  · exact (ha.canonical hq).valid_of_mem_cores fun c hc => (hmem c).mp hc ▸ .start
  · refine (ha.canonical hq).mem_cores_of_valid fun c hc hcase => ?_
    rcases hcase with hdot | ⟨-, rfl⟩
    · exact absurd (Grammar.dot_eq_zero_of_valid_nil hc) hdot
    · exact (hmem _).mpr rfl

theorem Explored.charted (ha : a.Explored g) : a.Charted g := by
  refine ⟨ha.id, ?_, ha.valid, ?_, ?_, fun hq => (ha.connected hq).nodup,
    fun hq => (ha.connected hq).expected, ?_⟩
  · intro i q hq hnil
    obtain ⟨c, hc⟩ := List.exists_mem_of_ne_nil _ (ha.canonical hq).kernel_ne
    exact List.not_mem_nil (hnil ▸ State.mem_cores_of_mem_kernel hc)
  · intro i j q q' γ hq hq' hγ hγ'
    have hkernel := (ha.canonical hq).kernel_eq (ha.canonical hq') fun c =>
      (hγ c).trans (hγ' c).symm
    have hid := ha.id hq
    have hid' := ha.id hq'
    have hfind := ha.kernels.mpr ⟨q, hid ▸ hq, hkernel⟩
    rw [ha.kernels.mpr ⟨q', hid' ▸ hq', rfl⟩, Option.some.injEq] at hfind
    rw [← hid, ← hid', hfind]
  · obtain ⟨q, hq, hholds, -⟩ := ha.holds_start
    exact ⟨q, hq, hholds⟩
  · intro i q symbol r hq hr
    obtain ⟨k, hk, hcores⟩ := (ha.connected hq).target hr
    obtain ⟨q', hq', rfl⟩ := ha.kernels.mp hk
    exact ⟨q', hq', fun γ hγ => (ha.canonical hq').mem_cores_shifted hγ hcores⟩

def outline (a : Automaton) : List (StateId × List ItemCore × List (Symbol × StateId)) :=
  a.states.toList.map State.outline

theorem exists_of_outline_eq {b : Automaton} (h : b.outline = a.outline) {i : Nat} {q : State}
    (hq : b.states[i]? = some q) : ∃ q', a.states[i]? = some q' ∧ q'.id = q.id ∧
      q'.items.cores = q.items.cores ∧ q'.transitions = q.transitions := by
  have hi := congrArg (·[i]?) h
  simp only [outline, List.getElem?_map, Array.getElem?_toList, hq, Option.map_some] at hi
  obtain ⟨q', hq', hoq⟩ := Option.map_eq_some_iff.mp hi.symm
  simp only [State.outline, Prod.mk.injEq] at hoq
  exact ⟨q', hq', hoq⟩

theorem Charted.of_outline_eq (ha : a.Charted g) {b : Automaton} (h : b.outline = a.outline) :
    b.Charted g := by
  have hholds : ∀ {q q' : State} {γ : List Symbol}, q'.items.cores = q.items.cores →
      (q'.Holds g γ ↔ q.Holds g γ) := by
    intro q q' γ hcores
    unfold State.Holds
    rw [hcores]
  refine ⟨?_, ?_, ?_, ?_, ?_, ?_, ?_, ?_⟩
  · intro i q hq
    obtain ⟨q', hq', hid, -, -⟩ := exists_of_outline_eq h hq
    exact hid ▸ ha.id hq'
  · intro i q hq
    obtain ⟨q', hq', -, hcores, -⟩ := exists_of_outline_eq h hq
    exact hcores ▸ ha.occupied hq'
  · intro i q hq
    obtain ⟨q', hq', -, hcores, -⟩ := exists_of_outline_eq h hq
    exact (ha.holds hq').imp fun γ => (hholds hcores).mp
  · intro i j q r γ hq hr hγ hγ'
    obtain ⟨q', hq', -, hcores, -⟩ := exists_of_outline_eq h hq
    obtain ⟨r', hr', -, hcores', -⟩ := exists_of_outline_eq h hr
    exact ha.unique hq' hr' ((hholds hcores).mpr hγ) ((hholds hcores').mpr hγ')
  · obtain ⟨q, hq, hγ⟩ := ha.start
    obtain ⟨q', hq', -, hcores, -⟩ := exists_of_outline_eq h.symm hq
    exact ⟨q', hq', (hholds hcores).mpr hγ⟩
  · intro i q hq
    obtain ⟨q', hq', -, -, htransitions⟩ := exists_of_outline_eq h hq
    exact htransitions ▸ ha.nodup hq'
  · intro i q hq
    obtain ⟨q', hq', -, hcores, htransitions⟩ := exists_of_outline_eq h hq
    exact htransitions ▸ hcores ▸ ha.expected hq'
  · intro i q symbol r hq hr
    obtain ⟨q', hq', -, hcores, htransitions⟩ := exists_of_outline_eq h hq
    obtain ⟨s, hs, hall⟩ := ha.target hq' (htransitions ▸ hr)
    obtain ⟨s', hs', -, hcores', -⟩ := exists_of_outline_eq h.symm hs
    exact ⟨s', hs', fun γ hγ => (hholds hcores').mpr (hall γ ((hholds hcores).mpr hγ))⟩

theorem follow?_append {q r : StateId} {u v : List Symbol} (h : a.follow? q u = some r) :
    a.follow? q (u ++ v) = a.follow? r v := by
  induction u generalizing q with
  | nil =>
      cases h
      rfl
  | cons symbol u ih =>
      obtain ⟨next, hnext, h⟩ := Option.bind_eq_some_iff.mp h
      rw [List.cons_append, follow?, hnext, Option.bind_some]
      exact ih h

theorem follow?_snoc {q r s : StateId} {state : State} {γ : List Symbol} {symbol : Symbol}
    (h : a.follow? q γ = some r) (hr : a.states[r.index]? = some state)
    (hs : state.transition? symbol = some s) : a.follow? q (γ ++ [symbol]) = some s := by
  rw [follow?_append h]
  simp [follow?, state?, hr, hs]

theorem Charted.holds_of_follow? (ha : a.Charted g) {γ γ' : List Symbol} {r s : StateId}
    {q : State} (hr : a.states[r.index]? = some q) (hq : q.Holds g γ)
    (h : a.follow? r γ' = some s) :
    ∃ q', a.states[s.index]? = some q' ∧ q'.Holds g (γ ++ γ') := by
  induction γ' generalizing γ r q with
  | nil =>
      cases h
      exact ⟨q, hr, by rwa [List.append_nil]⟩
  | cons symbol γ' ih =>
      obtain ⟨next, hnext, h⟩ := Option.bind_eq_some_iff.mp h
      rw [state?, hr, Option.bind_some] at hnext
      obtain ⟨q', hq', hall⟩ :=
        ha.target hr ((State.transition?_eq_some (ha.nodup hr)).mp hnext)
      have := ih hq' (hall γ hq) h
      rwa [List.append_assoc] at this

theorem Charted.exists_state (ha : a.Charted g) {γ : List Symbol} {r : StateId}
    (h : a.follow? .start γ = some r) : ∃ q, a.states[r.index]? = some q ∧ q.Holds g γ := by
  obtain ⟨q₀, hq₀, hholds₀⟩ := ha.start
  exact ha.holds_of_follow? hq₀ hholds₀ h

theorem Charted.exists_follow? (ha : a.Charted g) {γ : List Symbol} {c : ItemCore}
    (h : g.ValidItem γ c) : ∃ r, a.follow? .start γ = some r := by
  induction h with
  | start => exact ⟨.start, rfl⟩
  | predict _ _ _ ih => exact ih
  | @advance γ rest c symbol h hc ih =>
      obtain ⟨r, hr⟩ := ih
      obtain ⟨q, hq, hholds⟩ := ha.exists_state hr
      have hmem := (ha.expected hq symbol).mpr ⟨c, (hholds c).mpr h, rest, hc⟩
      obtain ⟨⟨x, s⟩, hs, rfl⟩ := List.mem_map.mp hmem
      exact ⟨s, follow?_snoc hr hq ((State.transition?_eq_some (ha.nodup hq)).mpr hs)⟩

theorem Charted.follow?_eq_some (ha : a.Charted g) {γ : List Symbol} {r : StateId} {q : State}
    (hq : a.states[r.index]? = some q) : a.follow? .start γ = some r ↔ q.Holds g γ := by
  constructor
  · intro h
    obtain ⟨q', hq', hholds⟩ := ha.exists_state h
    rw [hq, Option.some.injEq] at hq'
    exact hq' ▸ hholds
  · intro h
    obtain ⟨c, hc⟩ := List.exists_mem_of_ne_nil _ (ha.occupied hq)
    obtain ⟨s, hs⟩ := ha.exists_follow? ((h c).mp hc)
    obtain ⟨q', hq', hholds⟩ := ha.exists_state hs
    rw [hs, Ident.ext_index (ha.unique hq' hq hholds h)]

end Automaton

end Lalr
