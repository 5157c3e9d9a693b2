import VoleArc.Prim
import VoleArc.Markers
import VoleArc.Lib.Transition

/-!
# VoleArc.Store — atomic storage for accepted presentation tags
-/

namespace VoleArc

open Transition

/-- A `TagStore`: its state and `insert_if_absent`. -/
structure TagStore (S : Type) where
  insertIfAbsent : Bytes32 → Bytes32 → S → Except Error Bool × S

/-- `MemoryTagStore`: the accepted `(scope, tag)` pairs. -/
abbrev MemoryTagStore := Finset (Bytes32 × Bytes32)

/-- `HashSet::insert`. -/
def MemoryTagStore.insertIfAbsent (scope tag : Bytes32) (tags : MemoryTagStore) :
    Except Error Bool × MemoryTagStore :=
  (.ok ((scope, tag) ∉ tags), insert (scope, tag) tags)

def memoryTagStore : TagStore MemoryTagStore where
  insertIfAbsent := MemoryTagStore.insertIfAbsent

/-- `len`. -/
def MemoryTagStore.len (tags : MemoryTagStore) : ℕ := tags.card

/-- `insert_if_absent` as one atomic step on the stored pairs: it adds at most the given pair,
returns `true` only when it adds it, and may fail with or without having added it. -/
structure TagStore.Atomic {S : Type} (T : TagStore S) (stored : S → Set (Bytes32 × Bytes32)) :
    Prop where
  grows : ∀ scope tag s, stored s ⊆ stored (T.insertIfAbsent scope tag s).2
  only : ∀ scope tag s,
    stored (T.insertIfAbsent scope tag s).2 ⊆ insert (scope, tag) (stored s)
  first : ∀ scope tag s, (T.insertIfAbsent scope tag s).1 = .ok true →
    (scope, tag) ∉ stored s ∧ (scope, tag) ∈ stored (T.insertIfAbsent scope tag s).2
  repeated : ∀ scope tag s, (T.insertIfAbsent scope tag s).1 = .ok false → (scope, tag) ∈ stored s

/-- Refusing a pair changes nothing. -/
theorem TagStore.Atomic.stored_eq_of_false {S : Type} {T : TagStore S}
    {stored : S → Set (Bytes32 × Bytes32)} (hT : T.Atomic stored) {scope tag : Bytes32} {s : S}
    (h : (T.insertIfAbsent scope tag s).1 = .ok false) :
    stored (T.insertIfAbsent scope tag s).2 = stored s := by
  refine Set.Subset.antisymm ?_ (hT.grows scope tag s)
  intro key hkey
  rcases hT.only scope tag s hkey with rfl | hkey
  · exact hT.repeated scope tag s h
  · exact hkey

theorem memoryTagStore_atomic : memoryTagStore.Atomic fun tags =>
    (tags : Set (Bytes32 × Bytes32)) where
  grows := by
    intro scope tag tags key hkey
    exact Finset.mem_insert_of_mem hkey
  only := by
    intro scope tag tags key hkey
    exact Finset.mem_insert.mp hkey
  first := by
    intro scope tag tags h
    have habsent : decide ((scope, tag) ∉ tags) = true := Except.ok.inj h
    exact ⟨of_decide_eq_true habsent, Finset.mem_insert_self _ _⟩
  repeated := by
    intro scope tag tags h
    have hpresent : decide ((scope, tag) ∉ tags) = false := Except.ok.inj h
    exact not_not.mp (of_decide_eq_false hpresent)

/-! ### Runs of a store -/

/-- One call of `insert_if_absent` and what it returned. -/
structure StoreCall where
  scope : Bytes32
  tag : Bytes32
  result : Except Error Bool

/-- The pair a call reported as inserted. -/
def StoreCall.insertedKey (call : StoreCall) : Option (Bytes32 × Bytes32) :=
  match call.result with
  | .ok true => some (call.scope, call.tag)
  | _ => none

def TagStore.Step {S : Type} (T : TagStore S) (s : S) (call : StoreCall) (s' : S) : Prop :=
  T.insertIfAbsent call.scope call.tag s = (call.result, s')

/-- From `s` on, the store reports each pair as inserted at most once. -/
def TagStore.AtMostOnce {S : Type} (T : TagStore S) (s : S) : Prop :=
  ∀ calls s', Run T.Step s calls s' → Once StoreCall.insertedKey calls

theorem mem_insertIfAbsent {scope tag : Bytes32} {tags : MemoryTagStore} :
    (scope, tag) ∈ (MemoryTagStore.insertIfAbsent scope tag tags).2 :=
  Finset.mem_insert_self _ _

/-- A pair is reported as inserted when it is absent, and stays from then on. -/
theorem memoryTagStore_atMostOnce : memoryTagStore.AtMostOnce ∅ := by
  intro calls tags h
  refine (h.history (I := fun calls (tags : MemoryTagStore) => Once StoreCall.insertedKey calls ∧
    ∀ key ∈ calls.filterMap StoreCall.insertedKey, key ∈ tags) ⟨List.nodup_nil, by simp⟩ ?_).1
  rintro calls tags call tags' ⟨hnodup, hmem⟩ hstep
  obtain ⟨hresult, rfl⟩ := Prod.mk.inj hstep
  by_cases hin : (call.scope, call.tag) ∈ tags
  · have hkey : call.insertedKey = none := by
      rw [StoreCall.insertedKey, ← hresult, decide_eq_false (not_not.mpr hin)]
    rw [Once, List.filterMap_append, List.filterMap_cons_none hkey, List.filterMap_nil,
      List.append_nil]
    exact ⟨hnodup, fun key hkey => Finset.mem_insert_of_mem (hmem key hkey)⟩
  · have hkey : call.insertedKey = some (call.scope, call.tag) := by
      rw [StoreCall.insertedKey, ← hresult, decide_eq_true hin]
    rw [Once, List.filterMap_append, List.filterMap_cons_some hkey, List.filterMap_nil]
    refine ⟨List.nodup_append.mpr ⟨hnodup, List.nodup_singleton _, ?_⟩, ?_⟩
    · rintro a ha b hb rfl
      rw [List.mem_singleton.mp hb] at ha
      exact hin (hmem _ ha)
    · intro key hkey
      rcases List.mem_append.mp hkey with hkey | hkey
      · exact Finset.mem_insert_of_mem (hmem key hkey)
      · rw [List.mem_singleton.mp hkey]
        exact mem_insertIfAbsent

end VoleArc
