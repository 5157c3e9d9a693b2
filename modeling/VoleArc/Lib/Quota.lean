import Mathlib.Algebra.BigOperators.Group.Finset.Basic
import Mathlib.Algebra.BigOperators.Ring.Finset
import Mathlib.Algebra.Order.BigOperators.Group.Finset
import Mathlib.Data.Finset.Prod
import VoleArc.Lib.Transition

/-!
# Quota — an ideal rate limiter

Holders enroll in accounts.  An enrolled holder spends slots of the buckets of its account, each
slot below the limit of its spend and fresh on the ledger that records it.  A ledger may be lost; it
starts over empty.  What is spent in a bucket is bounded by the holders of its account, whatever the
order of the events.
-/

namespace Quota

open Transition

variable {Ledger Holder Bucket : Type}

/-- The enrolled holders, and the slots each ledger has recorded. -/
structure State (Ledger Holder Bucket : Type) where
  enrolled : Finset Holder
  spent : Ledger → Finset (Holder × Bucket × ℕ)

def State.start : State Ledger Holder Bucket := ⟨∅, fun _ => ∅⟩

inductive Event (Ledger Holder Bucket : Type) where
  | enroll (holder : Holder)
  | spend (ledger : Ledger) (holder : Holder) (bucket : Bucket) (slot limit : ℕ)
  | lose (ledger : Ledger)

variable [DecidableEq Ledger] [DecidableEq Holder] [DecidableEq Bucket]

/-- `owns holder bucket`: the bucket belongs to the holder's account. -/
inductive Step (owns : Holder → Bucket → Prop) :
    State Ledger Holder Bucket → Event Ledger Holder Bucket → State Ledger Holder Bucket → Prop
  | enroll {s : State Ledger Holder Bucket} {holder : Holder} :
      Step owns s (.enroll holder) { s with enrolled := insert holder s.enrolled }
  | spend {s : State Ledger Holder Bucket} {ledger : Ledger} {holder : Holder} {bucket : Bucket}
      {slot limit : ℕ} (henrolled : holder ∈ s.enrolled) (howns : owns holder bucket)
      (hslot : slot < limit) (hfresh : (holder, bucket, slot) ∉ s.spent ledger) :
      Step owns s (.spend ledger holder bucket slot limit)
        { s with
          spent := Function.update s.spent ledger
            (insert (holder, bucket, slot) (s.spent ledger)) }
  | lose {s : State Ledger Holder Bucket} {ledger : Ledger} :
      Step owns s (.lose ledger) { s with spent := Function.update s.spent ledger ∅ }

/-! ### What is counted -/

/-- A spend in the bucket whose limit is at most the bound. -/
def Event.spendsIn (bucket : Bucket) (bound : ℕ) : Event Ledger Holder Bucket → Bool
  | .spend _ _ bucket' _ limit => bucket' = bucket ∧ limit ≤ bound
  | _ => false

/-- Such a spend, recorded on this ledger. -/
def Event.spendsOn (ledger : Ledger) (bucket : Bucket) (bound : ℕ) :
    Event Ledger Holder Bucket → Bool
  | .spend ledger' _ bucket' _ limit => ledger' = ledger ∧ bucket' = bucket ∧ limit ≤ bound
  | _ => false

def Event.loses (ledger : Ledger) : Event Ledger Holder Bucket → Bool
  | .lose ledger' => ledger' = ledger
  | _ => false

/-- The ledgers that recorded a spend. -/
def Event.ledger : Event Ledger Holder Bucket → Option Ledger
  | .spend ledger _ _ _ _ => some ledger
  | _ => none

/-- An enrollment in the account of the bucket. -/
def Event.enrollsIn (owns : Holder → Bucket → Prop) [DecidableRel owns] (bucket : Bucket) :
    Event Ledger Holder Bucket → Bool
  | .enroll holder => owns holder bucket
  | _ => false

/-- The enrolled holders of the account of a bucket. -/
def State.holders (owns : Holder → Bucket → Prop) [DecidableRel owns] (bucket : Bucket)
    (s : State Ledger Holder Bucket) : Finset Holder :=
  s.enrolled.filter fun holder => owns holder bucket

/-- The recorded slots of a bucket below the bound. -/
def State.slots (ledger : Ledger) (bucket : Bucket) (bound : ℕ) (s : State Ledger Holder Bucket) :
    Finset (Holder × Bucket × ℕ) :=
  (s.spent ledger).filter fun slot => slot.2.1 = bucket ∧ slot.2.2 < bound

/-- An observation of a list is at most the sum of its parts. -/
theorem countP_le_sum {L ι : Type} {p : L → Bool} {part : ι → L → Bool} {R : Finset ι} {ls : List L}
    (h : ∀ l ∈ ls, p l = true → ∃ i ∈ R, part i l = true) :
    ls.countP p ≤ ∑ i ∈ R, ls.countP (part i) := by
  induction ls with
  | nil => exact Nat.zero_le _
  | cons l ls ih =>
    have hrest := ih fun l' hl' => h l' (List.mem_cons_of_mem _ hl')
    simp only [List.countP_cons, Finset.sum_add_distrib]
    refine Nat.add_le_add hrest ?_
    by_cases hp : p l = true
    · obtain ⟨i, hi, hpart⟩ := h l List.mem_cons_self hp
      calc (if p l = true then 1 else 0) = (if part i l = true then 1 else 0) := by
            rw [if_pos hp, if_pos hpart]
        _ ≤ ∑ i ∈ R, if part i l = true then 1 else 0 :=
            Finset.single_le_sum (f := fun i => if part i l = true then 1 else 0)
              (fun _ _ => Nat.zero_le _) hi
    · rw [if_neg hp]
      exact Nat.zero_le _

/-! ### The invariant -/

section Capacity

variable {owns : Holder → Bucket → Prop} [DecidableRel owns] {bucket : Bucket} {bound : ℕ}

/-- Slots are recorded for enrolled holders of the bucket's account, and each spend on a ledger is a
recorded slot or was lost with a full allowance. -/
structure Inv (owns : Holder → Bucket → Prop) [DecidableRel owns] (bucket : Bucket) (bound : ℕ)
    (events : List (Event Ledger Holder Bucket)) (s : State Ledger Holder Bucket) : Prop where
  recorded : ∀ ledger holder bucket slot, (holder, bucket, slot) ∈ s.spent ledger →
    holder ∈ s.enrolled ∧ owns holder bucket
  spends : ∀ ledger, events.countP (Event.spendsOn ledger bucket bound) ≤
    events.countP (Event.loses ledger) * ((s.holders owns bucket).card * bound) +
      (s.slots ledger bucket bound).card
  enrollments : (s.holders owns bucket).card ≤ events.countP (Event.enrollsIn owns bucket)

/-- The recorded slots of a bucket are slots of its holders. -/
theorem Inv.card_slots_le {events : List (Event Ledger Holder Bucket)}
    {s : State Ledger Holder Bucket} (h : Inv owns bucket bound events s) (ledger : Ledger) :
    (s.slots ledger bucket bound).card ≤ (s.holders owns bucket).card * bound := by
  have hsub : s.slots ledger bucket bound ⊆
      (s.holders owns bucket ×ˢ Finset.range bound).image fun p => (p.1, bucket, p.2) := by
    rintro ⟨holder, bucket', slot⟩ hmem
    obtain ⟨hspent, rfl, hslot⟩ := Finset.mem_filter.mp hmem
    obtain ⟨henrolled, howns⟩ := h.recorded _ _ _ _ hspent
    exact Finset.mem_image.mpr ⟨(holder, slot), Finset.mem_product.mpr
      ⟨Finset.mem_filter.mpr ⟨henrolled, howns⟩, Finset.mem_range.mpr hslot⟩, rfl⟩
  calc (s.slots ledger bucket bound).card
      ≤ ((s.holders owns bucket ×ˢ Finset.range bound).image fun p => (p.1, bucket, p.2)).card :=
        Finset.card_le_card hsub
    _ ≤ (s.holders owns bucket ×ˢ Finset.range bound).card := Finset.card_image_le
    _ = (s.holders owns bucket).card * bound := by rw [Finset.card_product, Finset.card_range]

omit [DecidableEq Ledger] [DecidableEq Bucket] in
theorem holders_insert_of_owns {s : State Ledger Holder Bucket} {holder : Holder}
    (h : owns holder bucket) :
    State.holders owns bucket { s with enrolled := insert holder s.enrolled } =
      insert holder (s.holders owns bucket) := by
  rw [State.holders, Finset.filter_insert, if_pos h]
  rfl

omit [DecidableEq Ledger] [DecidableEq Bucket] in
theorem holders_insert_of_not_owns {s : State Ledger Holder Bucket} {holder : Holder}
    (h : ¬ owns holder bucket) :
    State.holders owns bucket { s with enrolled := insert holder s.enrolled } =
      s.holders owns bucket := by
  rw [State.holders, Finset.filter_insert, if_neg h]
  rfl

theorem Inv.enroll {events : List (Event Ledger Holder Bucket)} {s : State Ledger Holder Bucket}
    (h : Inv owns bucket bound events s) (holder : Holder) :
    Inv owns bucket bound (events ++ [.enroll holder])
      { s with enrolled := insert holder s.enrolled } := by
  have hgrow : (s.holders owns bucket).card ≤ (State.holders owns bucket
      { s with enrolled := insert holder s.enrolled }).card :=
    Finset.card_le_card (Finset.filter_subset_filter _ (Finset.subset_insert _ _))
  refine ⟨?_, fun ledger => ?_, ?_⟩
  · intro ledger holder' bucket' slot hmem
    obtain ⟨henrolled, howns⟩ := h.recorded _ _ _ _ hmem
    exact ⟨Finset.mem_insert_of_mem henrolled, howns⟩
  · have hspends : events.countP (Event.spendsOn ledger bucket bound) ≤
        events.countP (Event.loses ledger) * ((State.holders owns bucket
          { s with enrolled := insert holder s.enrolled }).card * bound) +
          (s.slots ledger bucket bound).card :=
      (h.spends ledger).trans (by gcongr)
    simpa [Event.spendsOn, Event.loses, State.slots] using hspends
  · by_cases howns : owns holder bucket
    · have hcard := Finset.card_insert_le holder (s.holders owns bucket)
      rw [holders_insert_of_owns howns, List.countP_append]
      have hone : [(.enroll holder : Event Ledger Holder Bucket)].countP
          (Event.enrollsIn owns bucket) = 1 := by simp [Event.enrollsIn, howns]
      have := h.enrollments
      omega
    · rw [holders_insert_of_not_owns howns, List.countP_append]
      exact h.enrollments.trans (Nat.le_add_right _ _)

theorem Inv.spend {events : List (Event Ledger Holder Bucket)} {s : State Ledger Holder Bucket}
    (h : Inv owns bucket bound events s) {ledger : Ledger} {holder : Holder} {bucket' : Bucket}
    {slot limit : ℕ} (henrolled : holder ∈ s.enrolled) (howns : owns holder bucket')
    (hslot : slot < limit) (hfresh : (holder, bucket', slot) ∉ s.spent ledger) :
    Inv owns bucket bound (events ++ [.spend ledger holder bucket' slot limit])
      { s with
        spent := Function.update s.spent ledger
          (insert (holder, bucket', slot) (s.spent ledger)) } := by
  refine ⟨?_, fun other => ?_, ?_⟩
  · intro other holder'' bucket'' slot'' hmem
    by_cases hother : other = ledger
    · subst hother
      simp only [Function.update_self, Finset.mem_insert, Prod.mk.injEq] at hmem
      rcases hmem with ⟨rfl, rfl, rfl⟩ | hmem
      · exact ⟨henrolled, howns⟩
      · exact h.recorded _ _ _ _ hmem
    · simp only [Function.update_of_ne hother] at hmem
      exact h.recorded _ _ _ _ hmem
  · have hspends := h.spends other
    by_cases hother : other = ledger
    · subst hother
      simp only [List.countP_append, List.countP_singleton, Event.spendsOn, Event.loses,
        State.slots, Function.update_self, Finset.filter_insert, true_and, Bool.false_eq_true,
        if_false, Nat.add_zero]
      by_cases hcount : bucket' = bucket ∧ limit ≤ bound
      · -- a counted spend is recorded in a slot of its own
        have hbelow : bucket' = bucket ∧ slot < bound := ⟨hcount.1, hslot.trans_le hcount.2⟩
        rw [if_pos (by simpa using hcount), if_pos hbelow, Finset.card_insert_of_notMem
          fun hmem => hfresh (Finset.mem_filter.mp hmem).1]
        exact Nat.add_le_add_right hspends 1
      · rw [if_neg (by simpa using hcount)]
        refine hspends.trans (Nat.add_le_add_left (Finset.card_le_card ?_) _)
        split_ifs
        · exact Finset.subset_insert _ _
        · exact Finset.Subset.refl _
    · simpa [Event.spendsOn, Event.loses, State.slots, State.holders, Function.update_of_ne hother,
        Ne.symm hother] using hspends
  · rw [List.countP_append]
    exact h.enrollments.trans (Nat.le_add_right _ _)

theorem Inv.lose {events : List (Event Ledger Holder Bucket)} {s : State Ledger Holder Bucket}
    (h : Inv owns bucket bound events s) (ledger : Ledger) :
    Inv owns bucket bound (events ++ [.lose ledger])
      { s with spent := Function.update s.spent ledger ∅ } := by
  refine ⟨?_, fun other => ?_, ?_⟩
  · intro other holder bucket' slot hmem
    by_cases hother : other = ledger
    · subst hother
      simp only [Function.update_self, Finset.notMem_empty] at hmem
    · simp only [Function.update_of_ne hother] at hmem
      exact h.recorded _ _ _ _ hmem
  · have hspends := h.spends other
    by_cases hother : other = ledger
    · -- what the lost ledger recorded is paid for by the loss
      subst hother
      have hslots := h.card_slots_le other
      have hloss : events.countP (Event.loses other) * ((s.holders owns bucket).card * bound) +
          (s.holders owns bucket).card * bound =
            (events.countP (Event.loses other) + 1) * ((s.holders owns bucket).card * bound) := by
        ring
      simp only [List.countP_append, List.countP_singleton, Event.spendsOn, Event.loses,
        State.slots, Function.update_self, Finset.filter_empty, Finset.card_empty, decide_true,
        if_true, Bool.false_eq_true, if_false, Nat.add_zero]
      exact hspends.trans ((Nat.add_le_add_left hslots _).trans hloss.le)
    · simpa [Event.spendsOn, Event.loses, State.slots, State.holders, Function.update_of_ne hother,
        Ne.symm hother] using hspends
  · rw [List.countP_append]
    exact h.enrollments.trans (Nat.le_add_right _ _)

theorem inv_of_run {events : List (Event Ledger Holder Bucket)} {s : State Ledger Holder Bucket}
    (h : Run (Step owns) State.start events s) : Inv owns bucket bound events s := by
  refine h.history (I := Inv owns bucket bound) ⟨?_, ?_, ?_⟩ fun events s event s' hinv hstep => ?_
  · intro ledger holder bucket slot hmem
    exact absurd hmem (Finset.notMem_empty _)
  · intro ledger
    exact Nat.zero_le _
  · simp [State.holders, State.start]
  · cases hstep with
    | enroll => exact hinv.enroll _
    | spend henrolled howns hslot hfresh => exact hinv.spend henrolled howns hslot hfresh
    | lose => exact hinv.lose _

/-- In every run, what is spent in a bucket under a limit up to the bound is at most the bound for
each holder of its account, on each ledger and again after each loss of it. -/
theorem capacity {events : List (Event Ledger Holder Bucket)} {s : State Ledger Holder Bucket}
    (h : Run (Step owns) State.start events s) (bucket : Bucket) (bound : ℕ)
    {ledgers : Finset Ledger}
    (hledgers : ∀ event ∈ events, ∀ ledger, event.ledger = some ledger → ledger ∈ ledgers) :
    events.countP (Event.spendsIn bucket bound) ≤
      (∑ ledger ∈ ledgers, (events.countP (Event.loses ledger) + 1)) *
        ((s.holders owns bucket).card * bound) := by
  have hinv : Inv owns bucket bound events s := inv_of_run h
  have hparts : ∀ event ∈ events, Event.spendsIn bucket bound event = true →
      ∃ ledger ∈ ledgers, Event.spendsOn ledger bucket bound event = true := by
    intro event hmem hspends
    cases event with
    | enroll holder => cases hspends
    | lose ledger => cases hspends
    | spend ledger holder bucket' slot limit =>
      exact ⟨ledger, hledgers _ hmem ledger rfl,
        by simpa [Event.spendsOn, Event.spendsIn] using hspends⟩
  refine (countP_le_sum hparts).trans ?_
  rw [Finset.sum_mul]
  refine Finset.sum_le_sum fun ledger _ => ?_
  calc events.countP (Event.spendsOn ledger bucket bound)
      ≤ events.countP (Event.loses ledger) * ((s.holders owns bucket).card * bound) +
          (s.slots ledger bucket bound).card := hinv.spends ledger
    _ ≤ events.countP (Event.loses ledger) * ((s.holders owns bucket).card * bound) +
          (s.holders owns bucket).card * bound := Nat.add_le_add_left (hinv.card_slots_le ledger) _
    _ = (events.countP (Event.loses ledger) + 1) * ((s.holders owns bucket).card * bound) := by ring

end Capacity

end Quota
