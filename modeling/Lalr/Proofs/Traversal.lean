import Lalr.Symbol

namespace Lalr

variable {ε α β : Type}

theorem toOption_eq_some {result : Except ε α} {a : α} :
    result.toOption = some a ↔ result = .ok a := by
  cases result with
  | error e => simp [Except.toOption]
  | ok b => simp [Except.toOption]

theorem mapM_eq_ok {f : α → Except ε β} {as : List α} {bs : List β} :
    as.mapM f = .ok bs ↔ as.map f = bs.map .ok := by
  induction as generalizing bs with
  | nil => cases bs <;> simp [pure, Except.pure]
  | cons a as ih =>
      rw [List.mapM_cons, List.map_cons]
      cases ha : f a with
      | error e => cases bs <;> simp [bind, Except.bind]
      | ok b =>
          cases hrest : as.mapM f with
          | error e =>
              have hnot : ∀ bs : List β, as.map f ≠ bs.map .ok := by
                intro bs h
                rw [ih.mpr h] at hrest
                cases hrest
              cases bs <;> simp [bind, Except.bind, hnot]
          | ok rest =>
              rw [ih.mp hrest]
              cases bs with
              | nil => simp [bind, Except.bind, pure, Except.pure]
              | cons b' bs =>
                  have hinj : Function.Injective (Except.ok : β → Except ε β) :=
                    fun _ _ h => Except.ok.inj h
                  simp [bind, Except.bind, pure, Except.pure, List.map_inj_right hinj]

theorem exists_mapM_eq_ok (f : α → Except ε β) (as : List α) (h : ∀ a ∈ as, ∃ b, f a = .ok b) :
    ∃ bs, as.mapM f = .ok bs := by
  induction as with
  | nil => exact ⟨[], rfl⟩
  | cons a as ih =>
      obtain ⟨b, hb⟩ := h a List.mem_cons_self
      obtain ⟨bs, hbs⟩ := ih fun a' ha' => h a' (List.mem_cons_of_mem a ha')
      exact ⟨b :: bs, by simp [List.mapM_cons, hb, hbs, bind, Except.bind, pure, Except.pure]⟩

theorem filterMapM_eq_ok {f : α → Except ε (Option β)} {f' : α → Option β} {as : List α}
    (h : ∀ a ∈ as, f a = .ok (f' a)) : as.filterMapM f = .ok (as.filterMap f') := by
  induction as with
  | nil => rfl
  | cons a as ih =>
      have ha := h a List.mem_cons_self
      have has := ih fun a' ha' => h a' (List.mem_cons_of_mem a ha')
      cases hb : f' a <;>
        simp [List.filterMapM_cons, ha, has, hb, bind, Except.bind, pure, Except.pure]

theorem array_mapM_eq_ok {f : α → Except ε β} {as : Array α} {bs : Array β} :
    as.mapM f = .ok bs ↔ as.toList.mapM f = .ok bs.toList := by
  rw [Array.mapM_eq_mapM_toList]
  cases as.toList.mapM f with
  | error e => simp [Functor.map, Except.map]
  | ok list =>
      simp only [Functor.map, Except.map, Except.ok.injEq]
      exact ⟨fun h => h ▸ rfl, fun h => h ▸ rfl⟩

theorem exists_array_mapM_eq_ok (f : α → Except ε β) (as : Array α)
    (h : ∀ a ∈ as, ∃ b, f a = .ok b) : ∃ bs, as.mapM f = .ok bs := by
  obtain ⟨bs, hbs⟩ := exists_mapM_eq_ok f as.toList fun a ha => h a (Array.mem_toList_iff.mp ha)
  exact ⟨bs.toArray, array_mapM_eq_ok.mpr hbs⟩

theorem getElem?_of_mapM {f : α → Except ε β} {as : Array α} {bs : Array β}
    (h : as.mapM f = .ok bs) (i : Nat) : as[i]?.map f = bs[i]?.map .ok := by
  have hi := congrArg (·[i]?) (mapM_eq_ok.mp (array_mapM_eq_ok.mp h))
  simpa using hi

theorem size_of_mapM {f : α → Except ε β} {as : Array α} {bs : Array β} (h : as.mapM f = .ok bs) :
    bs.size = as.size := by
  have hlength := congrArg List.length (mapM_eq_ok.mp (array_mapM_eq_ok.mp h))
  simpa using hlength.symm

theorem exists_of_mem_mapM {f : α → Except ε β} {as : Array α} {bs : Array β}
    (h : as.mapM f = .ok bs) {b : β} (hb : b ∈ bs) : ∃ a ∈ as, f a = .ok b := by
  obtain ⟨i, hi⟩ := Array.getElem?_of_mem hb
  have hmap := getElem?_of_mapM h i
  rw [hi, Option.map_some] at hmap
  obtain ⟨a, ha, hok⟩ := Option.map_eq_some_iff.mp hmap
  exact ⟨a, Array.mem_of_getElem? ha, hok⟩

end Lalr
