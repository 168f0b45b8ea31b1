import Mathlib.Data.Set.Card
import Lalr.Proofs.CanonicalCollection

/-!
The limit on states.  Exploration can fail in one way only, by running out of numbers for states,
and it does so exactly if the grammar reaches more kernels than there are numbers.
-/

namespace Lalr

/-- The kernels that are reached from the start kernel, by closing a kernel and moving the marks
over a symbol. -/
inductive Grammar.ReachableKernels (g : Grammar) : Set (Set ItemCore)
  | start : ReachableKernels g {⟨.start, 0⟩}
  | goto {kernel : Set ItemCore} {symbol : Symbol} (h : ReachableKernels g kernel)
      (hne : (g.advanced (g.Closure kernel) symbol).Nonempty) :
      ReachableKernels g (g.advanced (g.Closure kernel) symbol)

variable {g : Grammar}

namespace Grammar

theorem basis_subset_canonical (γ : List Symbol) : g.basis γ ⊆ g.canonical γ :=
  fun _ hc => .base hc

theorem ValidItem.of_mem_basis {γ : List Symbol} {c : ItemCore} (h : c ∈ g.basis γ) :
    g.ValidItem γ c :=
  mem_canonical.mp (basis_subset_canonical γ h)

theorem Closure.nonempty {items : Set ItemCore} (h : (g.Closure items).Nonempty) :
    items.Nonempty := by
  obtain ⟨c, hc⟩ := h
  induction hc with
  | base hc => exact ⟨_, hc⟩
  | predict _ _ _ ih => exact ih

theorem mem_reachableKernels {kernel : Set ItemCore} :
    kernel ∈ g.ReachableKernels ↔ kernel.Nonempty ∧ ∃ γ, g.basis γ = kernel := by
  constructor
  · intro h
    induction h with
    | start => exact ⟨Set.singleton_nonempty _, [], rfl⟩
    | goto _ hne ih =>
        obtain ⟨-, γ, rfl⟩ := ih
        exact ⟨hne, γ ++ [_], basis_append_singleton γ _⟩
  · rintro ⟨hne, γ, rfl⟩
    induction γ using List.reverseRecOn with
    | nil => exact .start
    | append_singleton γ symbol ih =>
        rw [basis_append_singleton] at hne ⊢
        obtain ⟨c, d, hd, hrest⟩ := hne
        exact .goto (ih (Closure.nonempty ⟨d, hd⟩)) ⟨c, d, hd, hrest⟩

end Grammar

namespace Kernel

def toSet (k : Kernel) : Set ItemCore :=
  {c | c ∈ k.cores}

theorem toSet_injective : Function.Injective toSet :=
  fun _ _ h => ext_mem fun c => Set.ext_iff.mp h c

end Kernel

theorem State.Canonical.toSet_kernel {q : State} (hq : q.Canonical g) {γ : List Symbol}
    (hγ : q.Holds g γ) : q.kernel.toSet = g.basis γ :=
  Set.ext fun _ => hq.mem_kernel_iff_basis hγ

namespace Automaton

variable {a b : Automaton} {e : Violation}

def kernelSets (a : Automaton) : Set (Set ItemCore) :=
  Set.range fun i : Fin a.states.size => a.states[i].kernel.toSet

theorem mem_kernelSets {kernel : Set ItemCore} :
    kernel ∈ a.kernelSets ↔ ∃ (i : Nat) (q : State), a.states[i]? = some q ∧
      q.kernel.toSet = kernel := by
  constructor
  · rintro ⟨i, rfl⟩
    exact ⟨i, _, Array.getElem?_eq_getElem i.isLt, rfl⟩
  · rintro ⟨i, q, hq, rfl⟩
    obtain ⟨hlt, rfl⟩ := Array.getElem?_eq_some_iff.mp hq
    exact ⟨⟨i, hlt⟩, rfl⟩

/-- There are as many kernels as states. -/
theorem Sound.encard_kernelSets (ha : a.Sound g) : a.kernelSets.encard = a.states.size := by
  have hinjective : Function.Injective fun i : Fin a.states.size =>
      a.states[i].kernel.toSet := by
    intro i j hij
    have hi := Array.getElem?_eq_getElem i.isLt
    have hj := Array.getElem?_eq_getElem j.isLt
    have hfind {l : Fin a.states.size} (hl : a.states[l.val]? = some a.states[l]) :
        a.kernels.find? a.states[l].kernel = some a.states[l].id :=
      ha.kernels.mpr ⟨_, (ha.id hl).symm ▸ hl, rfl⟩
    have hid := hfind hi
    rw [Kernel.toSet_injective hij, hfind hj, Option.some.injEq] at hid
    exact Fin.ext ((ha.id hi).symm.trans ((congrArg Ident.index hid.symm).trans (ha.id hj)))
  rw [kernelSets, ← Set.image_univ, hinjective.encard_image, Set.encard_univ]
  simp

theorem Sound.kernelSets_subset (ha : a.Sound g) : a.kernelSets ⊆ g.ReachableKernels := by
  intro kernel h
  obtain ⟨i, q, hq, rfl⟩ := mem_kernelSets.mp h
  obtain ⟨γ, hγ⟩ := ha.valid hq
  refine Grammar.mem_reachableKernels.mpr ⟨?_, γ, ((ha.canonical hq).toSet_kernel hγ).symm⟩
  exact List.exists_mem_of_ne_nil _ (ha.canonical hq).kernel_ne

theorem Explored.kernelSets_eq (ha : a.Explored g) : a.kernelSets = g.ReachableKernels := by
  refine ha.kernelSets_subset.antisymm fun kernel h => ?_
  obtain ⟨⟨c, hc⟩, γ, rfl⟩ := Grammar.mem_reachableKernels.mp h
  obtain ⟨r, hr⟩ := ha.charted.exists_follow? (Grammar.ValidItem.of_mem_basis hc)
  obtain ⟨q, hq, hγ⟩ := ha.charted.exists_state hr
  exact mem_kernelSets.mpr ⟨r.index, q, hq, (ha.canonical hq).toSet_kernel hγ⟩

theorem Explored.encard_le (ha : a.Explored g) : g.ReachableKernels.encard ≤ 65536 := by
  rw [← ha.kernelSets_eq, ha.encard_kernelSets]
  exact_mod_cast ha.charted.size_le

theorem nextState_eq_error (h : a.nextState = .error e) :
    e = .tooManyStates ∧ 65536 ≤ a.states.size := by
  unfold nextState at h
  split at h
  · rename_i hnone
    cases h
    exact ⟨rfl, Ident.ofNat?_eq_none.mp hnone⟩
  · cases h

/-- When all numbers are used up and yet another kernel is found, there are too many of them. -/
theorem Sound.lt_encard (ha : a.Sound g) (hsize : 65536 ≤ a.states.size) {k : Kernel}
    (hk : k.toSet ∈ g.ReachableKernels) (hfresh : a.kernels.find? k = none) :
    65536 < g.ReachableKernels.encard := by
  have hnot : k.toSet ∉ a.kernelSets := by
    intro hmem
    obtain ⟨i, q, hq, hsame⟩ := mem_kernelSets.mp hmem
    have hfound := ha.kernels.mpr ⟨q, (ha.id hq).symm ▸ hq, Kernel.toSet_injective hsame⟩
    rw [hfresh] at hfound
    cases hfound
  have hcard : (insert k.toSet a.kernelSets).encard = (a.states.size + 1 : Nat) := by
    rw [Set.encard_insert_of_notMem hnot, ha.encard_kernelSets, Nat.cast_add, Nat.cast_one]
  have hle := Set.encard_le_encard (Set.insert_subset hk ha.kernelSets_subset)
  rw [hcard] at hle
  refine lt_of_lt_of_le ?_ hle
  exact_mod_cast Nat.lt_succ_of_le hsize

/-- Entering the kernel of a string fails only for want of a number: its items are known, so it can
be closed, and neither it nor its closure is empty. -/
theorem Sound.enter_error (hg : g.WellFormed) (ha : a.Sound g) {s : ItemSet} {γ : List Symbol}
    (hne : s.cores ≠ []) (hs : ∀ c, c ∈ s.cores ↔ c ∈ g.basis γ) (h : a.enter g s = .error e) :
    e = .tooManyStates ∧ 65536 < g.ReachableKernels.encard := by
  obtain ⟨c₀, hc₀⟩ := List.exists_mem_of_ne_nil _ hne
  have hset : s.kernel.toSet = g.basis γ := by
    ext c
    exact Kernel.mem_ofCores.trans (hs c)
  have hkernel : s.kernel.isEmpty = false := by
    have hmem : c₀ ∈ s.kernel.cores := Kernel.mem_ofCores.mpr hc₀
    cases hcores : s.kernel.cores with
    | nil => simp [hcores] at hmem
    | cons c cores => simp [Kernel.isEmpty, hcores]
  unfold Automaton.enter at h
  simp only at h
  split at h
  · cases h
  · rename_i hfresh
    split at h
    · rename_i e' hnext
      cases h
      obtain ⟨rfl, hsize⟩ := nextState_eq_error hnext
      refine ⟨rfl, ha.lt_encard hsize (Grammar.mem_reachableKernels.mpr ⟨?_, γ, hset.symm⟩) hfresh⟩
      exact ⟨c₀, Kernel.mem_ofCores.mpr hc₀⟩
    · rename_i owner hnext
      obtain ⟨closed, hclose, -⟩ := ItemSet.close_total hg owner fun c hc =>
        (Grammar.ValidItem.of_mem_basis ((hs c).mp hc)).production_isSome hg
      obtain ⟨-, ⟨extra, hextra, -⟩, -⟩ := ItemSet.close_expands hg hclose
      have hclosed : closed.isEmpty = false := by
        have hmem : c₀ ∈ closed.cores := hextra ▸ List.mem_append_left _ hc₀
        obtain ⟨slot, item, hitem, -⟩ := ItemSet.mem_cores.mp hmem
        rw [ItemSet.isEmpty, Array.isEmpty_eq_false_iff]
        rintro hempty
        simp [hempty] at hitem
      rw [hclose] at h
      simp [addState, hkernel, hclosed, hfresh, hnext] at h

theorem mem_cores_of_shiftOver {items : List Item} {γ : List Symbol} {symbol : Symbol}
    {s : ItemSet} (hitems : ∀ c, c ∈ items.map (·.core) ↔ g.ValidItem γ c)
    (h : ItemSet.shiftOver g symbol ∅ items = .ok s) (c : ItemCore) :
    c ∈ s.cores ↔ c ∈ g.basis (γ ++ [symbol]) := by
  obtain ⟨-, -, -, hmem⟩ := base_of_shiftOver hitems h
  rw [hmem, Grammar.basis_append_singleton]
  simp only [Grammar.Shifted, hitems, ← Grammar.mem_canonical]
  rfl

theorem Sound.enterAll_error (hg : g.WellFormed) {items : List Item} {γ : List Symbol}
    (hitems : ∀ c, c ∈ items.map (·.core) ↔ g.ValidItem γ c) {symbols : List Symbol}
    (hsymbols : ∀ symbol ∈ symbols, ∃ item ∈ items, ∃ rest, g.after item.core = symbol :: rest)
    (ha : a.Sound g) {transitions : Array (Symbol × StateId)} {added : List StateId}
    (h : Automaton.enterAll g items symbols a transitions added = .error e) :
    e = .tooManyStates ∧ 65536 < g.ReachableKernels.encard := by
  induction symbols generalizing a transitions added with
  | nil => cases h
  | cons symbol symbols ih =>
      obtain ⟨item, hitem, rest, hafter⟩ := hsymbols symbol List.mem_cons_self
      have hvalid {x : Item} (hx : x ∈ items) : g.ValidItem γ x.core :=
        (hitems x.core).mp (List.mem_map_of_mem hx)
      obtain ⟨s, hshift⟩ := ItemSet.exists_shiftOver
        (fun x hx => (hvalid hx).production_isSome hg) symbol ∅
      obtain ⟨hbase, hvalid', hall, hmem⟩ := base_of_shiftOver hitems hshift
      have hne : s.cores ≠ [] := List.ne_nil_of_mem
        ((hmem item.core.advance).mpr ⟨item.core, List.mem_map_of_mem hitem, rest, hafter, rfl⟩)
      unfold Automaton.enterAll at h
      rw [hshift] at h
      simp only at h
      split at h
      · rename_i e' henter
        cases h
        exact ha.enter_error hg hne (mem_cores_of_shiftOver hitems hshift) henter
      · rename_i a' target isNew henter
        obtain ⟨ha', -⟩ := ha.enter hg hbase hvalid'
          (fun c hc hcase => hall c hc (hcase.resolve_right fun hnil => by simp at hnil)) henter
        exact ih (fun x hx => hsymbols x (List.mem_cons_of_mem _ hx)) ha' h

theorem Sound.expand_error (hg : g.WellFormed) (ha : a.Sound g) {r : StateId} {q : State}
    (hq : a.states[r.index]? = some q) (h : a.expand g r = .error e) :
    e = .tooManyStates ∧ 65536 < g.ReachableKernels.encard := by
  obtain ⟨γ, hγ⟩ := ha.valid hq
  have hvalid {item : Item} (hitem : item ∈ q.items.items.toList) : g.ValidItem γ item.core :=
    (hγ _).mp (List.mem_map_of_mem hitem)
  obtain ⟨symbols, hsymbols⟩ := ItemSet.exists_expected
    (fun item hitem => (hvalid hitem).production_isSome hg) []
  obtain ⟨-, hexpected⟩ := ItemSet.expected_ok hsymbols List.nodup_nil
  unfold Automaton.expand at h
  rw [state_eq_ok.mpr hq] at h
  simp only [hsymbols] at h
  split at h
  · rename_i e' hall
    cases h
    exact ha.enterAll_error hg hγ
      (fun x hx => ((hexpected x).mp hx).resolve_left List.not_mem_nil) hall
  · cases h

theorem Sound.exists_of_kept (ha : a.Sound g) (hb : b.Sound g) (hkept : a.kernels.KeptIn b.kernels)
    {r : StateId} (h : ∃ q, a.states[r.index]? = some q) : ∃ q, b.states[r.index]? = some q := by
  obtain ⟨q, hq⟩ := h
  obtain ⟨q', hq', -⟩ := hb.kernels.mp (hkept (ha.kernels.mpr ⟨q, hq, rfl⟩))
  exact ⟨q', hq'⟩

theorem Sound.explore_error (hg : g.WellFormed) (ha : a.Sound g) {pending : List StateId}
    (hpending : ∀ r ∈ pending, ∃ q, a.states[r.index]? = some q)
    (h : a.explore g pending = .error e) :
    e = .tooManyStates ∧ 65536 < g.ReachableKernels.encard := by
  fun_induction Automaton.explore g a pending with
  | case1 a => cases h
  | case2 a r pending e' hexpand =>
      cases h
      obtain ⟨q, hq⟩ := hpending r List.mem_cons_self
      exact ha.expand_error hg hq hexpand
  | case3 a r pending a' added hexpand ih =>
      obtain ⟨ha', hkept, hadded, -⟩ := ha.expand hg hexpand
      refine ih ha' (fun s hs => ?_) h
      rcases List.mem_append.mp hs with hs | hs
      · exact hadded s hs
      · exact ha.exists_of_kept ha' hkept (hpending s (List.mem_cons_of_mem _ hs))

theorem reach_error (hg : g.WellFormed) (h : reach g = .error e) :
    e = .tooManyStates ∧ 65536 < g.ReachableKernels.encard := by
  have hstart : ∀ c, c ∈ startItems.cores ↔ c ∈ g.basis [] := by
    intro c
    rw [cores_startItems, List.mem_singleton, Grammar.basis_nil, Set.mem_singleton_iff]
  have hne : startItems.cores ≠ [] := by
    rw [cores_startItems]
    exact List.cons_ne_nil _ _
  unfold reach at h
  split at h
  · rename_i e' henter
    cases h
    exact sound_empty.enter_error hg hne hstart henter
  · rename_i a start isNew henter
    obtain ⟨ha, hfind, -⟩ := sound_start hg henter
    refine ha.explore_error hg (fun r hr => ?_) h
    obtain ⟨q, hq, -⟩ := ha.kernels.mp hfind
    exact ⟨q, List.mem_singleton.mp hr ▸ hq⟩

/-- Building fails exactly if the grammar reaches more kernels than there are numbers for states,
and for no other reason. -/
theorem build_cases (hg : g.WellFormed) :
    g.ReachableKernels.encard ≤ 65536 ∧ (∃ a, build g = .ok a) ∨
      65536 < g.ReachableKernels.encard ∧ build g = .error .tooManyStates := by
  unfold build machine
  rcases hreach : reach g with e | a
  · obtain ⟨rfl, hlt⟩ := reach_error hg hreach
    exact .inr ⟨hlt, rfl⟩
  · have ha := explored_of_reach hg hreach
    obtain ⟨b, hlink⟩ := ha.exists_link hg
    have hlinked := ha.linked hlink
    obtain ⟨n, c, hpropagate⟩ := propagate_total hlinked.size_le hlinked.wellLinked
    refine .inl ⟨ha.encard_le, c, ?_⟩
    simp only [bind, Except.bind, hlink, hpropagate]

end Automaton

end Lalr
