import Std.Data.ExtTreeMap
import Mathlib.Tactic

/-!
# SortedMap — an ordered map and its ascending list of entries

A strictly ascending list of entries is the entry list of exactly one ordered map, the one obtained
by inserting the entries one after the other.
-/

namespace SortedMap

open Std

variable {α β : Type} {cmp : α → α → Ordering}

/-- Keys strictly increase along the list. -/
def Ascending (cmp : α → α → Ordering) (entries : List (α × β)) : Prop :=
  entries.Pairwise fun a b => cmp a.1 b.1 = .lt

/-- Insert the entries one after the other. -/
def insertAll [TransCmp cmp] (m : ExtTreeMap α β cmp) (entries : List (α × β)) :
    ExtTreeMap α β cmp :=
  entries.foldl (fun m entry => m.insert entry.1 entry.2) m

theorem ascending_toList [TransCmp cmp] (m : ExtTreeMap α β cmp) : Ascending cmp m.toList :=
  ExtTreeMap.ordered_keys_toList

theorem Ascending.nodup [ReflCmp cmp] {entries : List (α × β)} (h : Ascending cmp entries) :
    entries.Nodup :=
  h.imp fun hlt heq => by simp [heq, ReflCmp.compare_self] at hlt

variable [TransCmp cmp]

/-- Ascending lists with the same entries are equal. -/
theorem Ascending.eq_of_mem_iff {l l' : List (α × β)} (h : Ascending cmp l) (h' : Ascending cmp l')
    (hmem : ∀ entry, entry ∈ l ↔ entry ∈ l') : l = l' := by
  have hperm : l.Perm l' := (List.perm_ext_iff_of_nodup h.nodup h'.nodup).mpr hmem
  refine hperm.eq_of_pairwise (fun a b _ _ hab hba => ?_) h h'
  rw [show cmp a.1 b.1 = (cmp b.1 a.1).swap from OrientedCmp.eq_swap, hba] at hab
  simp at hab

variable [LawfulEqCmp cmp]

theorem mem_insertAll {entries : List (α × β)} (h : Ascending cmp entries) :
    ∀ {m : ExtTreeMap α β cmp}, (∀ e ∈ entries, e.1 ∉ m) → ∀ k v,
      (insertAll m entries)[k]? = some v ↔ (k, v) ∈ entries ∨ m[k]? = some v := by
  induction entries with
  | nil => intro m _ k v; simp [insertAll]
  | cons e entries ih =>
    intro m hm k v
    obtain ⟨hlt, hasc⟩ := List.pairwise_cons.mp h
    have hm' : ∀ e' ∈ entries, e'.1 ∉ m.insert e.1 e.2 := by
      intro e' he' hmem
      rcases ExtTreeMap.mem_insert.mp hmem with heq | hmem
      · rw [hlt e' he'] at heq
        exact Ordering.noConfusion heq
      · exact hm e' (List.mem_cons_of_mem _ he') hmem
    have hfold : insertAll m (e :: entries) = insertAll (m.insert e.1 e.2) entries := rfl
    rw [hfold, ih hasc hm', ExtTreeMap.getElem?_insert, List.mem_cons]
    by_cases hk : e.1 = k
    · subst hk
      have hnone : m[e.1]? = none := ExtTreeMap.getElem?_eq_none (hm e List.mem_cons_self)
      have hhead : (e.1, v) = e ↔ e.2 = v := by
        rw [Prod.ext_iff, eq_comm (a := e.2)]
        simp
      rw [if_pos ReflCmp.compare_self, hnone, Option.some_inj, hhead, or_comm, or_assoc]
      simp
    · have hcmp : cmp e.1 k ≠ .eq := fun h => hk (LawfulEqCmp.eq_of_compare h)
      have hhead : (k, v) ≠ e := fun h => hk (congrArg Prod.fst h).symm
      rw [if_neg hcmp, or_assoc, or_iff_right hhead]

/-- Inserting an ascending list into the empty map gives a map with exactly these entries. -/
theorem toList_insertAll {entries : List (α × β)} (h : Ascending cmp entries) :
    (insertAll (∅ : ExtTreeMap α β cmp) entries).toList = entries := by
  refine (ascending_toList _).eq_of_mem_iff h fun e => ?_
  obtain ⟨k, v⟩ := e
  rw [ExtTreeMap.mem_toList_iff_getElem?_eq_some, mem_insertAll h (by simp)]
  simp

/-- A map is rebuilt from its entries. -/
theorem insertAll_toList (m : ExtTreeMap α β cmp) : insertAll ∅ m.toList = m :=
  ExtTreeMap.toList_inj.mp (toList_insertAll (ascending_toList m))

end SortedMap
