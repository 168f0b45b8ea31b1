import Lalr.Item.Basic
import Std.Data.TreeMap

/-!
Item sets.  Items stand in slots in the order in which their cores first appeared, one slot a core;
links point at slots, so a slot keeps its core for good.
-/

namespace Lalr

def slotIn (cores : List ItemCore) (core : ItemCore) : Option Nat :=
  cores.findIdx? (· == core)

structure ItemSet where
  items : Array Item
  slots : Std.TreeMap Nat Nat
  nodup : (items.toList.map (·.core)).Nodup
  slots_code : ∀ core, slots[core.code]? = slotIn (items.toList.map (·.core)) core

namespace ItemSet

def empty : ItemSet := ⟨#[], ∅, by simp, by simp [slotIn]⟩

instance : EmptyCollection ItemSet := ⟨empty⟩

def size (s : ItemSet) : Nat := s.items.size

def isEmpty (s : ItemSet) : Bool := s.items.isEmpty

def cores (s : ItemSet) : List ItemCore := s.items.toList.map (·.core)

def get? (s : ItemSet) (slot : Nat) : Option Item := s.items[slot]?

def find? (s : ItemSet) (core : ItemCore) : Option Nat := s.slots[core.code]?

theorem find?_eq (s : ItemSet) (core : ItemCore) : s.find? core = slotIn s.cores core :=
  s.slots_code core

theorem find?_eq_none {s : ItemSet} {core : ItemCore} : s.find? core = none ↔ core ∉ s.cores := by
  rw [find?_eq, slotIn, List.findIdx?_eq_none_iff]
  simp only [beq_eq_false_iff_ne]
  exact ⟨fun h hmem => h core hmem rfl, fun h c hc e => h (e ▸ hc)⟩

theorem cores_mapIdx (items : Array Item) {f : Nat → Item → Item}
    (keeps : ∀ slot item, (f slot item).core = item.core) :
    (items.mapIdx f).toList.map (·.core) = items.toList.map (·.core) := by
  apply List.ext_getElem?
  intro i
  cases h : items[i]? <;> simp [h, keeps]

theorem cores_modify (items : Array Item) (slot : Nat) {f : Item → Item}
    (keeps : ∀ item, (f item).core = item.core) :
    (items.modify slot f).toList.map (·.core) = items.toList.map (·.core) := by
  apply List.ext_getElem?
  intro i
  simp only [List.getElem?_map, Array.getElem?_toList, Array.getElem?_modify]
  split
  · cases items[i]? <;> simp [keeps]
  · rfl

def mapIdx (s : ItemSet) (f : Nat → Item → Item)
    (keeps : ∀ slot item, (f slot item).core = item.core) : ItemSet where
  items := s.items.mapIdx f
  slots := s.slots
  nodup := cores_mapIdx s.items keeps ▸ s.nodup
  slots_code := cores_mapIdx s.items keeps ▸ s.slots_code

def modify (s : ItemSet) (slot : Nat) (f : Item → Item)
    (keeps : ∀ item, (f item).core = item.core) : ItemSet where
  items := s.items.modify slot f
  slots := s.slots
  nodup := cores_modify s.items slot keeps ▸ s.nodup
  slots_code := cores_modify s.items slot keeps ▸ s.slots_code

def addLink (s : ItemSet) (slot : Nat) (target : ItemRef) : ItemSet :=
  s.modify slot (·.addLink target) fun item => item.core_addLink target

/-- Links each item to the target at its slot, if there is one. -/
def addLinks (s : ItemSet) (targets : Array (Option ItemRef)) : ItemSet :=
  s.mapIdx (fun slot item => targets[slot]?.join.elim item item.addLink) fun slot item => by
    cases targets[slot]?.join <;> simp

def setLookahead (s : ItemSet) (slot : Nat) (lookahead : TerminalSet) : ItemSet :=
  s.modify slot ({ · with lookahead }) fun _ => rfl

def clearLinks (s : ItemSet) (slot : Nat) : ItemSet :=
  s.modify slot ({ · with links := [] }) fun _ => rfl

def push (s : ItemSet) (item : Item) (fresh : s.find? item.core = none) : ItemSet where
  items := s.items.push item
  slots := s.slots.insert item.core.code s.items.size
  nodup := by
    have hnew := find?_eq_none.mp fresh
    rw [Array.toList_push, List.map_append, List.map_singleton, List.nodup_append]
    refine ⟨s.nodup, by simp, ?_⟩
    intro a ha b hb hab
    rw [List.mem_singleton] at hb
    exact hnew (hb ▸ hab ▸ ha)
  slots_code core := by
    rw [Array.toList_push, List.map_append, List.map_singleton, slotIn, List.findIdx?_append,
      Std.TreeMap.getElem?_insert]
    change _ = (slotIn s.cores core).or _
    rw [← find?_eq]
    by_cases h : item.core = core
    · subst h
      simp [fresh, List.findIdx?_cons]
    · have hcode : item.core.code ≠ core.code := fun e => h (ItemCore.code_inj.mp e)
      simp [h, hcode, List.findIdx?_cons, find?]

/-- Adds an item, or its lookahead to the item that has its core already.  Tells the slot of the
core and whether it is new. -/
def add (s : ItemSet) (item : Item) : ItemSet × Nat × Bool :=
  match fresh : s.find? item.core with
  | some slot =>
    (s.modify slot (fun old => { old with lookahead := old.lookahead ∪ item.lookahead })
      fun _ => rfl, slot, false)
  | none => (s.push item fresh, s.items.size, true)

def addAll (s : ItemSet) (items : List Item) : ItemSet × List (Nat × Bool) :=
  let (s, places) := items.foldl
    (fun (s, places) item =>
      let (s, slot, isNew) := s.add item
      (s, (slot, isNew) :: places)) (s, [])
  (s, places.reverse)

/-- Whether two sets have the same cores, in whatever slots.  As no set has a core twice, it is
enough that the second has all cores of the first and no more slots. -/
def sameCores (s t : ItemSet) : Bool :=
  s.size == t.size && s.items.all fun item => (t.find? item.core).isSome

def text (g : Grammar) (s : ItemSet) : Option String := do
  let lines ← s.items.toList.mapM fun item => item.text g
  return Text.lines (lines.map ("- " ++ ·))

@[simp] theorem cores_addLink (s : ItemSet) (slot : Nat) (target : ItemRef) :
    (s.addLink slot target).cores = s.cores :=
  cores_modify _ _ fun item => item.core_addLink target

@[simp] theorem cores_setLookahead (s : ItemSet) (slot : Nat) (lookahead : TerminalSet) :
    (s.setLookahead slot lookahead).cores = s.cores :=
  cores_modify _ _ fun _ => rfl

theorem cores_add (s : ItemSet) (item : Item) :
    (s.add item).1.cores = if item.core ∈ s.cores then s.cores else s.cores ++ [item.core] := by
  unfold add
  split
  · rename_i slot h
    have hmem : item.core ∈ s.cores := by
      false_or_by_contra
      rename_i hn
      rw [find?_eq_none.mpr hn] at h
      cases h
    rw [if_pos hmem]
    exact cores_modify _ _ fun _ => rfl
  · rename_i h
    rw [if_neg (find?_eq_none.mp h)]
    simp [cores, push]

theorem add_isNew {s : ItemSet} {item : Item} : (s.add item).2.2 = true ↔ item.core ∉ s.cores := by
  rw [← find?_eq_none]
  unfold add
  split <;> simp_all

end ItemSet

end Lalr
