import Lalr.Item.Kernel
import Lalr.Proofs.ValidItems

namespace Lalr.ItemSet

theorem find?_eq_some {s : ItemSet} {core : ItemCore} {slot : Nat} :
    s.find? core = some slot ↔ ∃ item : Item, s.items[slot]? = some item ∧ item.core = core := by
  have hlist : ∀ {i : Nat} {c : ItemCore}, s.cores[i]? = some c ↔
      ∃ item : Item, s.items[i]? = some item ∧ item.core = c := by
    intro i c
    simp [cores]
  rw [← hlist, find?_eq, slotIn, List.findIdx?_eq_some_iff_getElem]
  constructor
  · rintro ⟨hlt, hcore, -⟩
    rw [List.getElem?_eq_getElem hlt]
    exact congrArg some (by simpa using hcore)
  · intro h
    obtain ⟨hlt, hcore⟩ := List.getElem?_eq_some_iff.mp h
    refine ⟨hlt, by simpa using hcore, ?_⟩
    intro j hj heq
    have hsame : s.cores[j] = s.cores[slot] := by
      rw [hcore]
      simpa using heq
    exact absurd ((List.getElem_inj s.nodup).mp hsame) (by omega)

theorem mem_cores {s : ItemSet} {core : ItemCore} :
    core ∈ s.cores ↔
      ∃ (slot : Nat) (item : Item), s.items[slot]? = some item ∧ item.core = core := by
  unfold cores
  rw [List.mem_map]
  constructor
  · rintro ⟨item, hitem, rfl⟩
    obtain ⟨slot, hslot⟩ := Array.getElem?_of_mem (Array.mem_toList_iff.mp hitem)
    exact ⟨slot, item, hslot, rfl⟩
  · rintro ⟨slot, item, hslot, rfl⟩
    exact ⟨item, Array.mem_toList_iff.mpr (Array.mem_of_getElem? hslot), rfl⟩

theorem length_cores (s : ItemSet) : s.cores.length = s.size := by
  simp [cores, size]

theorem slot_inj {s : ItemSet} {i j : Nat} {a b : Item} (hi : s.items[i]? = some a)
    (hj : s.items[j]? = some b) (h : a.core = b.core) : i = j := by
  have hfind := find?_eq_some.mpr ⟨a, hi, h⟩
  rw [find?_eq_some.mpr ⟨b, hj, rfl⟩] at hfind
  exact (Option.some.inj hfind).symm

theorem core_inj {s : ItemSet} {a b : Item} (ha : a ∈ s.items) (hb : b ∈ s.items)
    (h : a.core = b.core) : a = b := by
  obtain ⟨i, hi⟩ := Array.getElem?_of_mem ha
  obtain ⟨j, hj⟩ := Array.getElem?_of_mem hb
  obtain rfl := slot_inj hi hj h
  exact Option.some.inj (hi.symm.trans hj)

theorem add_cases (s : ItemSet) (item : Item) :
    (∃ slot old, s.items[slot]? = some old ∧ old.core = item.core ∧
      (s.add item).2 = (slot, false) ∧ (s.add item).1.items =
        s.items.modify slot fun old => { old with lookahead := old.lookahead ∪ item.lookahead }) ∨
    item.core ∉ s.cores ∧ (s.add item).2 = (s.size, true) ∧
      (s.add item).1.items = s.items.push item := by
  unfold add
  split
  · rename_i slot hfind
    obtain ⟨old, hold, hcore⟩ := find?_eq_some.mp hfind
    exact .inl ⟨slot, old, hold, hcore, rfl, rfl⟩
  · rename_i hfind
    exact .inr ⟨find?_eq_none.mp hfind, rfl, rfl⟩

theorem getElem?_addLink {s : ItemSet} {slot j : Nat} {target : ItemRef} :
    (s.addLink slot target).items[j]? =
      if slot = j then s.items[j]?.map (·.addLink target) else s.items[j]? := by
  simp [addLink, modify, Array.getElem?_modify]

theorem mem_links_addLink {item : Item} {target r : ItemRef} :
    r ∈ (item.addLink target).links ↔ r ∈ item.links ∨ r = target := by
  unfold Item.addLink
  split
  · rename_i h
    exact ⟨.inl, fun hr => hr.elim id fun e => e ▸ h⟩
  · simp

theorem lookahead_addLink (item : Item) (target : ItemRef) :
    (item.addLink target).lookahead = item.lookahead := by
  unfold Item.addLink
  split <;> rfl

/-- Every slot of `s` is kept in `s'`, with no fewer terminals and links. -/
def Grows (s s' : ItemSet) : Prop :=
  ∀ ⦃slot : Nat⦄ ⦃item : Item⦄, s.items[slot]? = some item →
    ∃ item' : Item, s'.items[slot]? = some item' ∧ item'.core = item.core ∧
      (∀ t ∈ item.lookahead, t ∈ item'.lookahead) ∧ ∀ r ∈ item.links, r ∈ item'.links

theorem Grows.refl (s : ItemSet) : s.Grows s := by
  intro slot item h
  exact ⟨item, h, rfl, fun _ ht => ht, fun _ hr => hr⟩

theorem Grows.trans {s s' s'' : ItemSet} (h : s.Grows s') (h' : s'.Grows s'') : s.Grows s'' := by
  intro slot item hitem
  obtain ⟨item', hitem', hcore, hla, hlinks⟩ := h hitem
  obtain ⟨item'', hitem'', hcore', hla', hlinks'⟩ := h' hitem'
  exact ⟨item'', hitem'', hcore'.trans hcore, fun t ht => hla' t (hla t ht),
    fun r hr => hlinks' r (hlinks r hr)⟩

theorem grows_add (s : ItemSet) (item : Item) : s.Grows (s.add item).1 := by
  intro slot it hit
  rcases add_cases s item with ⟨slot', old, -, -, -, hitems⟩ | ⟨-, -, hitems⟩
  · rw [hitems, Array.getElem?_modify, hit]
    split
    · exact ⟨_, rfl, rfl, fun t ht => IdentSet.mem_union.mpr (.inl ht), fun _ hr => hr⟩
    · exact ⟨it, rfl, rfl, fun _ ht => ht, fun _ hr => hr⟩
  · have hne : slot ≠ s.items.size :=
      Nat.ne_of_lt (Array.getElem?_eq_some_iff.mp hit).1
    rw [hitems, Array.getElem?_push, if_neg hne, hit]
    exact ⟨it, rfl, rfl, fun _ ht => ht, fun _ hr => hr⟩

theorem grows_addLink (s : ItemSet) (slot : Nat) (target : ItemRef) :
    s.Grows (s.addLink slot target) := by
  intro j item hitem
  rw [getElem?_addLink, hitem]
  split
  · exact ⟨_, rfl, item.core_addLink target, by simp [lookahead_addLink],
      fun r hr => mem_links_addLink.mpr (.inl hr)⟩
  · exact ⟨item, rfl, rfl, fun _ ht => ht, fun _ hr => hr⟩

theorem getElem?_add_slot (s : ItemSet) (item : Item) :
    ∃ item' : Item, (s.add item).1.items[(s.add item).2.1]? = some item' ∧
      item'.core = item.core ∧ ∀ t ∈ item.lookahead, t ∈ item'.lookahead := by
  rcases add_cases s item with ⟨slot, old, hold, hcore, hslot, hitems⟩ | ⟨-, hslot, hitems⟩
  · rw [hslot, hitems, Array.getElem?_modify, if_pos rfl, hold]
    exact ⟨_, rfl, hcore, fun t ht => IdentSet.mem_union.mpr (.inr ht)⟩
  · rw [hslot, hitems, size, Array.getElem?_push_size]
    exact ⟨item, rfl, rfl, fun _ ht => ht⟩

theorem getElem?_add {s : ItemSet} {item item' : Item} {slot : Nat}
    (h : (s.add item).1.items[slot]? = some item') :
    item' = item ∨ ∃ old : Item, s.items[slot]? = some old ∧ item'.core = old.core ∧
      item'.links = old.links ∧ ∀ t ∈ item'.lookahead, t ∈ old.lookahead ∨
        t ∈ item.lookahead ∧ old.core = item.core := by
  rcases add_cases s item with ⟨slot', old, hold, hcore, -, hitems⟩ | ⟨-, -, hitems⟩
  · rw [hitems, Array.getElem?_modify] at h
    split at h
    · rename_i heq
      subst heq
      rw [hold, Option.map_some, Option.some.injEq] at h
      subst h
      exact .inr ⟨old, hold, rfl, rfl,
        fun t ht => (IdentSet.mem_union.mp ht).imp id fun ht => ⟨ht, hcore⟩⟩
    · exact .inr ⟨item', h, rfl, rfl, fun _ ht => .inl ht⟩
  · rw [hitems, Array.getElem?_push] at h
    split at h
    · exact .inl (Option.some.inj h).symm
    · exact .inr ⟨item', h, rfl, rfl, fun _ ht => .inl ht⟩

end Lalr.ItemSet
