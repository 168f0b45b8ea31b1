import Lalr.Proofs.Kernels

namespace Lalr

open Automaton (startItems)

def State.kernel (q : State) : Kernel :=
  .ofCores (q.items.cores.take q.kernelSize)

/-- A state is the closure of its kernel.  The kernel is that of the start state, or no item in it
has the mark in front. -/
structure State.Canonical (g : Grammar) (q : State) : Prop where
  expanded : ∀ slot < q.items.size, q.items.Expanded g q.id slot
  behind : ∀ c ∈ q.items.cores.drop q.kernelSize, c.dot = 0
  kernelSize_le : q.kernelSize ≤ q.items.cores.length
  justified : ∀ {core : ItemCore → Prop} {la : ItemCore → TerminalId → Prop},
    g.Predictive core la → (∀ c ∈ q.kernel.cores, core c) →
      (⟨.start, 0⟩ ∈ q.kernel.cores → la ⟨.start, 0⟩ .eof) → q.items.Justified g q.id core la
  kernel_dot : q.kernel = startItems.kernel ∨ ∀ c ∈ q.kernel.cores, c.dot ≠ 0
  kernel_ne : q.kernel.cores ≠ []
  eof : ⟨.start, 0⟩ ∈ q.kernel.cores → ∃ (slot : Nat) (item : Item),
    q.items.items[slot]? = some item ∧ item.core = ⟨.start, 0⟩ ∧ TerminalId.eof ∈ item.lookahead

variable {g : Grammar}

theorem State.mem_kernel {q : State} {c : ItemCore} :
    c ∈ q.kernel.cores ↔ c ∈ q.items.cores.take q.kernelSize :=
  Kernel.mem_ofCores

theorem State.mem_cores_of_mem_kernel {q : State} {c : ItemCore} (h : c ∈ q.kernel.cores) :
    c ∈ q.items.cores :=
  List.mem_of_mem_take (State.mem_kernel.mp h)

theorem State.Canonical.mem_kernel_of_dot {q : State} (hq : q.Canonical g) {c : ItemCore}
    (h : c ∈ q.items.cores) (hdot : c.dot ≠ 0) : c ∈ q.kernel.cores := by
  rw [← List.take_append_drop q.kernelSize q.items.cores] at h
  rcases List.mem_append.mp h with h | h
  · exact State.mem_kernel.mpr h
  · exact absurd (hq.behind c h) hdot

theorem State.Canonical.mem_cores_of_valid {q : State} (hq : q.Canonical g)
    {γ : List Symbol} (hkernel : ∀ c, g.ValidItem γ c →
      (c.dot ≠ 0 ∨ γ = [] ∧ c = ⟨.start, 0⟩) → c ∈ q.kernel.cores)
    {c : ItemCore} (h : g.ValidItem γ c) : c ∈ q.items.cores := by
  induction h with
  | start => exact State.mem_cores_of_mem_kernel (hkernel _ .start (.inr ⟨rfl, rfl⟩))
  | @predict γ rest rhs c n p h hc hp ih =>
      obtain ⟨slot, item, hitem, rfl⟩ := ItemSet.mem_cores.mp (ih hkernel)
      obtain ⟨j, target, htarget, hcore, -⟩ :=
        hq.expanded slot (Array.getElem?_eq_some_iff.mp hitem).1 hitem hc hp
      exact ItemSet.mem_cores.mpr ⟨j, target, htarget, hcore⟩
  | advance h hc _ =>
      exact State.mem_cores_of_mem_kernel (hkernel _ (.advance h hc) (.inl (Nat.succ_ne_zero _)))

theorem State.Canonical.valid_of_mem_cores {q : State} (hq : q.Canonical g) {γ : List Symbol}
    (hkernel : ∀ c ∈ q.kernel.cores, g.ValidItem γ c) {c : ItemCore} (h : c ∈ q.items.cores) :
    g.ValidItem γ c := by
  have hpredictive : g.Predictive (g.ValidItem γ) fun _ _ => True :=
    ⟨.predict, fun _ _ _ _ => trivial, fun _ _ _ _ => trivial⟩
  obtain ⟨slot, item, hitem, rfl⟩ := ItemSet.mem_cores.mp h
  exact (hq.justified hpredictive hkernel fun _ => trivial).core hitem

theorem Grammar.dot_eq_zero_of_valid_nil {c : ItemCore} (h : g.ValidItem [] c) : c.dot = 0 := by
  generalize hγ : ([] : List Symbol) = γ at h
  cases h with
  | start => rfl
  | predict => rfl
  | advance => simp at hγ

theorem State.Canonical.mem_cores_shifted {q q' : State} (hq' : q'.Canonical g)
    {γ : List Symbol} {symbol : Symbol} (hq : ∀ c, c ∈ q.items.cores ↔ g.ValidItem γ c)
    (hkernel : ∀ c, c ∈ q'.kernel.cores ↔ g.Shifted q.items.cores symbol c) (c : ItemCore) :
    c ∈ q'.items.cores ↔ g.ValidItem (γ ++ [symbol]) c := by
  constructor
  · refine hq'.valid_of_mem_cores fun c hc => ?_
    obtain ⟨d, hd, rest, hrest, rfl⟩ := (hkernel c).mp hc
    exact .advance ((hq d).mp hd) hrest
  · refine hq'.mem_cores_of_valid fun c hc hcase => ?_
    rcases hcase with hdot | ⟨hnil, -⟩
    · obtain ⟨d, rest, rfl, hd, hrest⟩ := hc.retreat hdot
      exact (hkernel _).mpr ⟨d, (hq d).mpr hd, rest, hrest, rfl⟩
    · simp at hnil

end Lalr
