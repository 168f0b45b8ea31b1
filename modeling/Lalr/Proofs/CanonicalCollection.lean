import Mathlib.Data.Set.Basic
import Lalr.Proofs.Lookaheads

/-!
The canonical collection of item sets.  The set of a string is defined by the grammar alone, as the
closure of what the set of the string without its last symbol gives over this symbol.  A finished
automaton has a state for each such set that is not empty, and no others.
-/

namespace Lalr

namespace Grammar

/-- The items of a set with all that they predict. -/
inductive Closure (g : Grammar) (items : Set ItemCore) : Set ItemCore
  | base {c : ItemCore} (h : c ∈ items) : Closure g items c
  | predict {c : ItemCore} {n : NonterminalId} {rest rhs : List Symbol} {p : ProductionId}
      (h : Closure g items c) (hc : g.after c = .nonterminal n :: rest)
      (hp : g.HasRule p n rhs) : Closure g items ⟨p, 0⟩

/-- The items of a set that expect `symbol`, with the mark moved over it. -/
def advanced (g : Grammar) (items : Set ItemCore) (symbol : Symbol) : Set ItemCore :=
  {c | ∃ d ∈ items, ∃ rest, g.after d = symbol :: rest ∧ c = d.advance}

/-- The items that the set of a string is the closure of. -/
def basis (g : Grammar) (γ : List Symbol) : Set ItemCore :=
  γ.foldl (fun items symbol => g.advanced (g.Closure items) symbol) {⟨.start, 0⟩}

/-- The canonical item set of a string. -/
def canonical (g : Grammar) (γ : List Symbol) : Set ItemCore :=
  g.Closure (g.basis γ)

variable {g : Grammar}

@[simp] theorem basis_nil : g.basis [] = {⟨.start, 0⟩} :=
  rfl

@[simp] theorem basis_append_singleton (γ : List Symbol) (symbol : Symbol) :
    g.basis (γ ++ [symbol]) = g.advanced (g.canonical γ) symbol := by
  rw [basis, List.foldl_append, List.foldl_cons, List.foldl_nil, canonical, basis]

/-- The set of a longer string is the closure of what the set before gives over the last symbol. -/
theorem canonical_append_singleton (γ : List Symbol) (symbol : Symbol) :
    g.canonical (γ ++ [symbol]) = g.Closure (g.advanced (g.canonical γ) symbol) := by
  rw [canonical, basis_append_singleton]

theorem ValidItem.of_closure {γ : List Symbol} {items : Set ItemCore}
    (h : ∀ c ∈ items, g.ValidItem γ c) {c : ItemCore} (hc : c ∈ g.Closure items) :
    g.ValidItem γ c := by
  induction hc with
  | base hc => exact h _ hc
  | predict _ hc hp ih => exact .predict ih hc hp

theorem mem_canonical {γ : List Symbol} {c : ItemCore} :
    c ∈ g.canonical γ ↔ g.ValidItem γ c := by
  constructor
  · induction γ using List.reverseRecOn generalizing c with
    | nil =>
        apply ValidItem.of_closure
        rintro c rfl
        exact .start
    | append_singleton γ symbol ih =>
        rw [canonical_append_singleton]
        apply ValidItem.of_closure
        rintro c ⟨d, hd, rest, hrest, rfl⟩
        exact .advance (ih hd) hrest
  · intro h
    induction h with
    | start => exact .base rfl
    | predict _ hc hp ih => exact .predict ih hc hp
    | @advance γ rest c symbol _ hc ih =>
        rw [canonical_append_singleton]
        exact .base ⟨c, ih, rest, hc, rfl⟩

theorem mem_basis_append_singleton {γ : List Symbol} {symbol : Symbol} {c : ItemCore} :
    c ∈ g.basis (γ ++ [symbol]) ↔ g.ValidItem (γ ++ [symbol]) c ∧ c.dot ≠ 0 := by
  rw [basis_append_singleton]
  constructor
  · rintro ⟨d, hd, rest, hrest, rfl⟩
    exact ⟨.advance (mem_canonical.mp hd) hrest, Nat.succ_ne_zero _⟩
  · rintro ⟨hc, hdot⟩
    obtain ⟨d, rest, rfl, hd, hrest⟩ := hc.retreat hdot
    exact ⟨d, mem_canonical.mpr hd, rest, hrest, rfl⟩

theorem ValidItem.exists_dot {γ : List Symbol} {symbol : Symbol} {c : ItemCore}
    (h : g.ValidItem (γ ++ [symbol]) c) : ∃ d, g.ValidItem (γ ++ [symbol]) d ∧ d.dot ≠ 0 := by
  generalize hγ : γ ++ [symbol] = whole at h ⊢
  induction h with
  | start => simp at hγ
  | predict _ _ _ ih => exact ih hγ
  | advance h hc => exact ⟨_, .advance h hc, Nat.succ_ne_zero _⟩

end Grammar

theorem State.Canonical.mem_kernel_iff_basis {g : Grammar} {q : State} (hq : q.Canonical g)
    {γ : List Symbol} (hγ : q.Holds g γ) {c : ItemCore} : c ∈ q.kernel.cores ↔ c ∈ g.basis γ := by
  have hstart : ∀ c, c ∈ Automaton.startItems.kernel.cores ↔ c = ⟨.start, 0⟩ := by
    intro c
    rw [ItemSet.kernel, Kernel.mem_ofCores, Automaton.cores_startItems, List.mem_singleton]
  obtain ⟨c₀, hc₀⟩ := List.exists_mem_of_ne_nil _ hq.kernel_ne
  have hvalid := (hγ c₀).mp (State.mem_cores_of_mem_kernel hc₀)
  rcases List.eq_nil_or_concat' γ with rfl | ⟨γ, symbol, rfl⟩
  · rcases hq.kernel_dot with hstartKernel | hdot
    · rw [hstartKernel, hstart, Grammar.basis_nil, Set.mem_singleton_iff]
    · exact absurd (Grammar.dot_eq_zero_of_valid_nil hvalid) (hdot c₀ hc₀)
  · rw [Grammar.mem_basis_append_singleton, ← hγ]
    rcases hq.kernel_dot with hstartKernel | hdot
    · -- The start state is not entered by a symbol: its kernel has the mark in front.
      obtain ⟨d, hd, hdot⟩ := hvalid.exists_dot
      have hmem := hq.mem_kernel_of_dot ((hγ d).mpr hd) hdot
      rw [hstartKernel, hstart] at hmem
      exact absurd (hmem ▸ rfl) hdot
    · exact hq.mem_kernel_iff hdot

namespace Automaton

variable {g : Grammar} {a b : Automaton}

theorem kernelSize_linkState {states : Array State} {q q' : State}
    (h : linkState g states q = .ok q') : q'.kernelSize = q.kernelSize := by
  obtain ⟨successors, -, rfl⟩ := linkState_eq_ok.mp h
  rfl

theorem kernels_link (h : a.link g = .ok b) : b.kernels = a.kernels := by
  obtain ⟨states, -, rfl⟩ := link_eq_ok.mp h
  rfl

theorem frame_link (h : a.link g = .ok b) : b.frame = a.frame := by
  refine Prod.ext (kernels_link h) ?_
  apply List.ext_getElem?
  intro i
  simp only [frame, List.getElem?_map, Array.getElem?_toList]
  rcases hq : b.states[i]? with _ | q'
  · have hi := link_states h i
    rw [hq, Option.map_none, Option.map_eq_none_iff] at hi
    rw [hi]
  · obtain ⟨q, hq', hok⟩ := exists_of_link h hq
    rw [hq', Option.map_some, Option.map_some, kernelSize_linkState hok]

theorem exists_explored_of_build (hg : g.WellFormed) (h : build g = .ok a) :
    ∃ a₀ : Automaton, a₀.Explored g ∧ a.outline = a₀.outline ∧ a.frame = a₀.frame := by
  obtain ⟨a₀, a₁, passes, hreach, hlink, hpropagate⟩ := build_eq_ok.mp h
  have hfills := (passFrom_spec (P := fun _ _ => True) hpropagate).1
  exact ⟨a₀, explored_of_reach hg hreach, hfills.outline.trans (outline_link hlink),
    hfills.frame.trans (frame_link hlink)⟩

theorem exists_of_frame_eq (houtline : b.outline = a.outline) (hframe : b.frame = a.frame)
    {i : Nat} {q : State} (hq : b.states[i]? = some q) :
    ∃ q', a.states[i]? = some q' ∧ q'.items.cores = q.items.cores ∧
      q'.kernelSize = q.kernelSize ∧ q'.kernel = q.kernel := by
  obtain ⟨q', hq', -, hcores, -⟩ := exists_of_outline_eq houtline hq
  have hsizes := congrArg (·[i]?) (Prod.mk.inj hframe).2
  simp only [List.getElem?_map, Array.getElem?_toList, hq, hq', Option.map_some,
    Option.some.injEq] at hsizes
  refine ⟨q', hq', hcores, hsizes.symm, ?_⟩
  rw [State.kernel, hcores, ← hsizes, State.kernel]

/-- The automaton is the canonical collection of item sets: its states are the canonical sets that
are not empty, each of them once, and a string leads to the state of its set. -/
structure IsCollection (g : Grammar) (a : Automaton) : Prop where
  follow : ∀ γ, (∃ r, a.follow? .start γ = some r) ↔ (g.canonical γ).Nonempty
  cores : ∀ γ r, a.follow? .start γ = some r →
    ∃ q, a.state? r = some q ∧ ∀ c, c ∈ q.items.cores ↔ c ∈ g.canonical γ
  reached : ∀ q ∈ a.states, ∃ γ, a.follow? .start γ = some q.id
  deterministic : ∀ q ∈ a.states, (q.transitions.map (·.1)).Nodup
  id : ∀ (i : Nat) (q : State), a.states[i]? = some q → q.id.index = i
  -- The kernel stands in the first slots.
  kernel : ∀ q ∈ a.states, ∀ γ, a.follow? .start γ = some q.id →
    ∀ c, c ∈ q.items.cores.take q.kernelSize ↔ c ∈ g.basis γ
  kernelSize : ∀ q ∈ a.states, q.kernel.cores.length = q.kernelSize
  -- What the closure adds stands behind the kernel.
  behind : ∀ q ∈ a.states, ∀ c ∈ q.items.cores.drop q.kernelSize, c.dot = 0
  unique : ∀ (i j : Nat) (q q' : State), a.states[i]? = some q → a.states[j]? = some q' →
    q.kernel = q'.kernel → i = j
  find : ∀ k r, a.find? k = some r ↔ ∃ q, a.state? r = some q ∧ q.kernel = k

theorem Explored.length_kernel (ha : a.Explored g) {i : Nat} {q : State}
    (hq : a.states[i]? = some q) : q.kernel.cores.length = q.kernelSize := by
  have hnodup : (q.items.cores.take q.kernelSize).Nodup :=
    q.items.nodup.sublist (List.take_sublist _ _)
  rw [State.kernel, Kernel.length_ofCores hnodup, List.length_take,
    Nat.min_eq_left (ha.canonical hq).kernelSize_le]

theorem Explored.isCollection {a₀ : Automaton} (ha₀ : a₀.Explored g)
    (houtline : a.outline = a₀.outline) (hframe : a.frame = a₀.frame) : a.IsCollection g := by
  have ha := ha₀.charted.of_outline_eq houtline
  have hsame {i : Nat} {q : State} (hq : a.states[i]? = some q) :=
    exists_of_frame_eq houtline hframe hq
  have hid {q : State} (hq : q ∈ a.states) : a.states[q.id.index]? = some q := by
    obtain ⟨i, hi⟩ := Array.getElem?_of_mem hq
    exact (ha.id hi).symm ▸ hi
  have hfind : ∀ k r, a.find? k = some r ↔ ∃ q, a.state? r = some q ∧ q.kernel = k := by
    intro k r
    have hkernels : a.kernels = a₀.kernels := (Prod.mk.inj hframe).1
    rw [Automaton.find?, hkernels, ha₀.kernels]
    constructor
    · rintro ⟨q, hq, rfl⟩
      obtain ⟨q', hq', -, -, hkernel⟩ := exists_of_frame_eq houtline.symm hframe.symm hq
      exact ⟨q', hq', hkernel⟩
    · rintro ⟨q, hq, rfl⟩
      obtain ⟨q', hq', -, -, hkernel⟩ := hsame hq
      exact ⟨q', hq', hkernel⟩
  refine ⟨?_, ?_, ?_, ?_, fun i q hq => ha.id hq, ?_, ?_, ?_, ?_, hfind⟩
  · intro γ
    constructor
    · rintro ⟨r, hr⟩
      obtain ⟨q, hq, hγ⟩ := ha.exists_state hr
      obtain ⟨c, hc⟩ := List.exists_mem_of_ne_nil _ (ha.occupied hq)
      exact ⟨c, Grammar.mem_canonical.mpr ((hγ c).mp hc)⟩
    · rintro ⟨c, hc⟩
      exact ha.exists_follow? (Grammar.mem_canonical.mp hc)
  · intro γ r hr
    obtain ⟨q, hq, hγ⟩ := ha.exists_state hr
    exact ⟨q, hq, fun c => (hγ c).trans Grammar.mem_canonical.symm⟩
  · intro q hq
    exact (ha.holds (hid hq)).imp fun γ => (ha.follow?_eq_some (hid hq)).mpr
  · intro q hq
    exact ha.nodup (hid hq)
  · intro q hq γ hγ c
    obtain ⟨q', hq', hcores, hsize, -⟩ := hsame (hid hq)
    rw [ha.follow?_eq_some (hid hq)] at hγ
    have hγ' : q'.Holds g γ := fun c => hcores ▸ hγ c
    rw [← (ha₀.canonical hq').mem_kernel_iff_basis hγ', State.mem_kernel, hcores, hsize]
  · intro q hq
    obtain ⟨q', hq', -, hsize, hkernel⟩ := hsame (hid hq)
    rw [← hkernel, ← hsize]
    exact ha₀.length_kernel hq'
  · intro q hq
    obtain ⟨q', hq', hcores, hsize, -⟩ := hsame (hid hq)
    rw [← hcores, ← hsize]
    exact (ha₀.canonical hq').behind
  · intro i j q q' hq hq' hkernel
    have hfound := (hfind q.kernel q.id).mpr ⟨q, hid (Array.mem_of_getElem? hq), rfl⟩
    rw [(hfind q.kernel q'.id).mpr ⟨q', hid (Array.mem_of_getElem? hq'), hkernel.symm⟩,
      Option.some.injEq] at hfound
    rw [← ha.id hq, ← ha.id hq', hfound]

/-- What is built for a grammar is the canonical collection of its item sets. -/
theorem isCollection_of_build {declarations : List Declaration}
    (hg : Grammar.define declarations = .ok g) (ha : build g = .ok a) : a.IsCollection g := by
  obtain ⟨a₀, ha₀, houtline, hframe⟩ :=
    exists_explored_of_build (Grammar.wellFormed_of_define hg) ha
  exact ha₀.isCollection houtline hframe

theorem isCollection_of_build_optionalTail :
    ∃ g a, Grammar.define optionalTail = .ok g ∧ build g = .ok a ∧ a.states.size = 6 ∧
      (g.canonical [.nonterminal (.nth 2), .terminal (.nth 3)]).Nonempty ∧
        ¬ (g.canonical [.terminal (.nth 3)]).Nonempty := by
  have hrun : (ofDeclarations optionalTail).any (fun (_, a) => a.states.size = 6 ∧
      (a.follow? .start [.nonterminal (.nth 2), .terminal (.nth 3)]).isSome ∧
      a.follow? .start [.terminal (.nth 3)] = none) = true := by
    decide +kernel
  obtain ⟨⟨g, a⟩, hbuilt, hchecks⟩ := (Option.any_eq_true _ _).mp hrun
  obtain ⟨hg, ha⟩ := ofDeclarations_eq_some hbuilt
  simp only [decide_eq_true_eq] at hchecks
  obtain ⟨hsize, hafter, hfirst⟩ := hchecks
  have hcollection := isCollection_of_build hg ha
  refine ⟨g, a, hg, ha, hsize, ?_, ?_⟩
  · exact (hcollection.follow _).mp (Option.isSome_iff_exists.mp hafter)
  · rw [← hcollection.follow, hfirst]
    rintro ⟨r, ⟨⟩⟩

end Automaton

end Lalr
