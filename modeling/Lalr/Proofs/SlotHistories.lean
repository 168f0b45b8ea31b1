import Lalr.Proofs.LeastClosure

namespace Lalr

namespace Kernel

theorem nodup_cores (k : Kernel) : k.cores.Nodup :=
  k.sorted.nodup

end Kernel

namespace ItemSet

variable {s s' t : ItemSet}

/-- A set as a map from cores to slots, with its kernel as the sorted list of its cores. -/
structure IsMap (s : ItemSet) : Prop where
  unique : ∀ {i j : Nat} {a b : Item}, s.get? i = some a → s.get? j = some b →
    a.core = b.core → i = j
  find? : ∀ {core : ItemCore} {slot : Nat},
    s.find? core = some slot ↔ ∃ item, s.get? slot = some item ∧ item.core = core
  sorted : s.kernel.cores.Pairwise (· < ·)
  perm : s.kernel.cores.Perm s.cores

theorem perm_cores_kernel (s : ItemSet) : s.kernel.cores.Perm s.cores :=
  (List.perm_ext_iff_of_nodup s.kernel.nodup_cores s.nodup).mpr fun _ => Kernel.mem_ofCores

theorem isMap (s : ItemSet) : s.IsMap :=
  ⟨slot_inj, find?_eq_some, s.kernel.sorted, s.perm_cores_kernel⟩

theorem kernel_eq_iff : s.kernel = t.kernel ↔ s.cores.Perm t.cores := by
  constructor
  · intro h
    exact s.perm_cores_kernel.symm.trans (h ▸ t.perm_cores_kernel)
  · intro h
    refine Kernel.ext_mem fun c => ?_
    rw [s.perm_cores_kernel.mem_iff, h.mem_iff, t.perm_cores_kernel.mem_iff]

theorem sameCores_iff :
    s.sameCores t = true ↔ s.cores.length = t.cores.length ∧ ∀ c ∈ s.cores, c ∈ t.cores := by
  simp only [sameCores, Bool.and_eq_true, beq_iff_eq, length_cores, Array.all_eq_true_iff_forall_mem,
    Option.isSome_iff_ne_none, ne_eq, find?_eq_none, not_not]
  refine and_congr_right fun _ => ⟨fun h c hc => ?_, fun h item hitem => ?_⟩
  · obtain ⟨slot, item, hslot, rfl⟩ := mem_cores.mp hc
    exact h item (Array.mem_of_getElem? hslot)
  · exact h item.core (List.mem_map_of_mem (Array.mem_toList_iff.mpr hitem))

/-- No set has a core twice, so a set has room for no others than those of an equally large one
within it. -/
theorem sameCores_iff_kernel_eq : s.sameCores t = true ↔ s.kernel = t.kernel := by
  rw [sameCores_iff, kernel_eq_iff]
  constructor
  · rintro ⟨hlength, hsub⟩
    exact (List.subperm_of_subset s.nodup hsub).perm_of_length_le (Nat.le_of_eq hlength.symm)
  · intro h
    exact ⟨h.length_eq, fun c => h.mem_iff.mp⟩

/-- What can be done to an item set.  An update sets the lookahead and the links of the item in a
slot to something else, possibly made from what they were. -/
inductive Operation where
  | add (item : Item)
  | close (g : Grammar) (owner : StateId)
  | update (slot : Nat) (lookahead : TerminalSet → TerminalSet)
      (links : List ItemRef → List ItemRef)

namespace Operation

/-- The set after an operation.  If closing fails, this is what it had done until then. -/
def apply (s : ItemSet) : Operation → ItemSet
  | add item => (s.add item).1
  | close g owner => (s.close g owner).state
  | update slot lookahead links =>
    s.modify slot (fun item => ⟨item.core, lookahead item.lookahead, links item.links⟩) fun _ => rfl

def IsUpdate : Operation → Prop
  | update .. => True
  | _ => False

end Operation

/-- The set made by the given operations. -/
def made (operations : List Operation) : ItemSet :=
  operations.foldl Operation.apply ∅

/-- Every core of `s` has the same slot in `s'`. -/
def Keeps (s s' : ItemSet) : Prop :=
  ∀ ⦃core : ItemCore⦄ ⦃slot : Nat⦄, s.find? core = some slot → s'.find? core = some slot

theorem Grows.keeps (h : s.Grows s') : s.Keeps s' := by
  intro core slot hfind
  obtain ⟨item, hitem, rfl⟩ := find?_eq_some.mp hfind
  obtain ⟨item', hitem', hcore, -⟩ := h hitem
  exact find?_eq_some.mpr ⟨item', hitem', hcore⟩

theorem grows_apply {operation : Operation} (h : ¬ operation.IsUpdate) (s : ItemSet) :
    s.Grows (operation.apply s) := by
  cases operation with
  | add item => exact grows_add s item
  | close g owner => exact grows_closeFrom g owner s _
  | update slot lookahead links => exact absurd trivial h

theorem keeps_apply (s : ItemSet) (operation : Operation) : s.Keeps (operation.apply s) := by
  cases operation with
  | add item => exact (grows_add s item).keeps
  | close g owner => exact (grows_closeFrom g owner s _).keeps
  | update slot lookahead links =>
      intro core slot' hfind
      have hcores : (Operation.apply s (.update slot lookahead links)).cores = s.cores :=
        cores_modify _ _ fun _ => rfl
      rwa [find?_eq, hcores, ← find?_eq]

theorem keeps_foldl (s : ItemSet) (operations : List Operation) :
    s.Keeps (operations.foldl Operation.apply s) := by
  induction operations generalizing s with
  | nil => exact fun _ _ h => h
  | cons operation operations ih => exact fun _ _ h => ih _ (keeps_apply s operation h)

theorem grows_foldl (s : ItemSet) {operations : List Operation}
    (h : ∀ operation ∈ operations, ¬ operation.IsUpdate) :
    s.Grows (operations.foldl Operation.apply s) := by
  induction operations generalizing s with
  | nil => exact .refl s
  | cons operation operations ih =>
      obtain ⟨hfirst, hrest⟩ := List.forall_mem_cons.mp h
      exact (grows_apply hfirst s).trans (ih _ hrest)

/-- Every set that is made by adding items, closing and updating lookaheads and links is a map.
Later operations leave each core in its slot, and without updates its lookahead and its links only
grow.  What is added is found in the slot that is told, with its whole lookahead.  Two sets are told
to be equal exactly if their kernels are. -/
theorem isMap_made (operations : List Operation) :
    (made operations).IsMap ∧
      (∀ later, (made operations).Keeps (made (operations ++ later))) ∧
      (∀ later, (∀ operation ∈ later, ¬ operation.IsUpdate) →
        (made operations).Grows (made (operations ++ later))) ∧
      (∀ item, ∃ item', ((made operations).add item).1.get? ((made operations).add item).2.1 =
        some item' ∧ item'.core = item.core ∧ ∀ t ∈ item.lookahead, t ∈ item'.lookahead) ∧
      ∀ others, (made operations).sameCores (made others) = true ↔
        (made operations).kernel = (made others).kernel := by
  have happend : ∀ later, made (operations ++ later) =
      later.foldl Operation.apply (made operations) := fun _ => List.foldl_append
  refine ⟨isMap _, fun later => ?_, fun later hlater => ?_, fun item => getElem?_add_slot _ item,
    fun others => sameCores_iff_kernel_eq⟩
  · rw [happend]
    exact keeps_foldl _ later
  · rw [happend]
    exact grows_foldl _ hlater

/-- Closing adds to the set before it comes to a production that the grammar lacks.  The set made in
the other order has other slots, lookaheads and links, and is equal. -/
theorem isMap_made_swapped :
    ∃ g, Grammar.define circle = .ok g ∧
      let a : Item := ⟨⟨.nth 1, 0⟩, .single (.nth 0), []⟩
      let b : Item := ⟨⟨.nth 9, 2⟩, ∅, [⟨.start, 0⟩]⟩
      let s := made [.add a, .add b]
      let closed := made [.add a, .add b, .close g .start]
      let swapped := made [.add b, .add a, .update 0 (fun _ => .single (.nth 1)) fun _ => []]
      (s.close g .start).outcome = .error (.unknownProduction (.nth 9)) ∧
        (∀ operation ∈ [Operation.close g .start], ¬ operation.IsUpdate) ∧ s.Grows closed ∧
        closed.find? ⟨.nth 3, 0⟩ = some 3 ∧ s.find? a.core = some 0 ∧
        closed.find? a.core = some 0 ∧ swapped.find? a.core = some 1 ∧
        s.sameCores swapped = true ∧ s.kernel = swapped.kernel := by
  let a : Item := ⟨⟨.nth 1, 0⟩, .single (.nth 0), []⟩
  let b : Item := ⟨⟨.nth 9, 2⟩, ∅, [⟨.start, 0⟩]⟩
  obtain ⟨g, hg, hrun⟩ := @Grammar.exists_define circle (fun g =>
      ((made [.add a, .add b]).close g .start).outcome = .error (.unknownProduction (.nth 9)) ∧
        (made [.add a, .add b, .close g .start]).find? ⟨.nth 3, 0⟩ = some 3) (by decide +kernel)
  obtain ⟨hfails, hpredicted⟩ := of_decide_eq_true hrun
  obtain ⟨-, hkeeps, hgrows, -, hsame⟩ := isMap_made [.add a, .add b]
  have hadds : ∀ operation ∈ [Operation.close g .start], ¬ operation.IsUpdate := by
    rintro operation hmem
    rw [List.mem_singleton.mp hmem]
    exact id
  have ha : (made [.add a, .add b]).find? a.core = some 0 := by decide +kernel
  have hswapped : (made [.add a, .add b]).sameCores (made
      [.add b, .add a, .update 0 (fun _ => .single (.nth 1)) fun _ => []]) = true := by
    decide +kernel
  exact ⟨g, hg, hfails, hadds, hgrows _ hadds, hpredicted, ha, hkeeps _ ha, by decide +kernel,
    hswapped, (hsame _).mp hswapped⟩

end ItemSet

end Lalr
