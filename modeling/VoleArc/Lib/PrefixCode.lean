import Mathlib.Data.List.Infix
import Mathlib.Tactic

/-!
# PrefixCode — encodings that can be read off the front of a string

An encoding is separable if no string starts with the encodings of two values.  Constants of which
none starts another, values of one length, length-prefixed strings and lists of a known number of
entries are separable, and so is one separable encoding after another.  A set of words none of which
starts another is prefix-free; words of such sets, one behind the other, can be told apart again.
-/

namespace PrefixCode

variable {α γ ι β : Type}

/-- What starts with the encoding of a valid value determines the value and the rest. -/
def Separable (valid : α → Prop) (enc : α → List β) : Prop :=
  ∀ ⦃a a' : α⦄ ⦃s s' : List β⦄, valid a → valid a' → enc a ++ s = enc a' ++ s' →
    a = a' ∧ s = s'

variable {valid : α → Prop} {enc : α → List β}

theorem Separable.inj (h : Separable valid enc) {a a' : α} (ha : valid a) (ha' : valid a')
    (heq : enc a = enc a') : a = a' := by
  have hwhole : enc a ++ [] = enc a' ++ [] := by rw [heq]
  exact (h ha ha' hwhole).1

/-- Constants of which none starts another. -/
theorem separable_of_prefixFree {domain : ι → List β}
    (h : ∀ i j, domain i <+: domain j → i = j) : Separable (fun _ => True) domain := by
  intro i j s s' _ _ heq
  have hij : i = j := by
    rcases List.prefix_or_prefix_of_prefix (List.prefix_append (domain i) s)
      (heq ▸ List.prefix_append (domain j) s') with hpre | hpre
    · exact h i j hpre
    · exact (h j i hpre).symm
  subst hij
  exact ⟨rfl, List.append_cancel_left heq⟩

/-- Values of one length. -/
theorem separable_of_length {n : ℕ} (hlen : ∀ a, valid a → (enc a).length = n)
    (hinj : ∀ a a', valid a → valid a' → enc a = enc a' → a = a') : Separable valid enc := by
  intro a a' s s' ha ha' heq
  obtain ⟨hfront, hrest⟩ := List.append_inj heq ((hlen a ha).trans (hlen a' ha').symm)
  exact ⟨hinj a a' ha ha' hfront, hrest⟩

/-- A string after its length. -/
theorem Separable.framed {bound : ℕ} {len : ℕ → List β} (h : Separable (· < bound) len) :
    Separable (fun a : List β => a.length < bound) fun a => len a.length ++ a := by
  intro a a' s s' ha ha' heq
  have hwhole : len a.length ++ (a ++ s) = len a'.length ++ (a' ++ s') := by
    simpa only [List.append_assoc] using heq
  obtain ⟨hlen, hrest⟩ := h ha ha' hwhole
  exact List.append_inj hrest hlen

/-- A known number of entries. -/
theorem Separable.flatMap (h : Separable valid enc) (n : ℕ) :
    Separable (fun as : List α => as.length = n ∧ ∀ a ∈ as, valid a) fun as => as.flatMap enc := by
  induction n with
  | zero =>
    rintro as as' s s' ⟨hlen, -⟩ ⟨hlen', -⟩ heq
    obtain rfl := List.length_eq_zero_iff.mp hlen
    obtain rfl := List.length_eq_zero_iff.mp hlen'
    exact ⟨rfl, heq⟩
  | succ n ih =>
    rintro (_ | ⟨a, as⟩) (_ | ⟨a', as'⟩) s s' ⟨hlen, hvalid⟩ ⟨hlen', hvalid'⟩ heq
    · cases hlen
    · cases hlen
    · cases hlen'
    · have hwhole : enc a ++ (as.flatMap enc ++ s) = enc a' ++ (as'.flatMap enc ++ s') := by
        simpa only [List.flatMap_cons, List.append_assoc] using heq
      obtain ⟨rfl, htail⟩ :=
        h (hvalid a List.mem_cons_self) (hvalid' a' List.mem_cons_self) hwhole
      obtain ⟨rfl, hrest⟩ := ih
        ⟨Nat.succ.inj hlen, fun b hb => hvalid b (List.mem_cons_of_mem a hb)⟩
        ⟨Nat.succ.inj hlen', fun b hb => hvalid' b (List.mem_cons_of_mem a hb)⟩ htail
      exact ⟨rfl, hrest⟩

/-- Entries of known sizes. -/
theorem separable_flatten (sizes : List ℕ) :
    Separable (fun as : List (List β) => as.map List.length = sizes) List.flatten := by
  induction sizes with
  | nil =>
    intro as as' s s' hlen hlen' heq
    obtain rfl := List.map_eq_nil_iff.mp hlen
    obtain rfl := List.map_eq_nil_iff.mp hlen'
    exact ⟨rfl, heq⟩
  | cons n sizes ih =>
    rintro (_ | ⟨a, as⟩) (_ | ⟨a', as'⟩) s s' hlen hlen' heq
    · cases hlen
    · cases hlen
    · cases hlen'
    · obtain ⟨ha, has⟩ := List.cons.inj hlen
      obtain ⟨ha', has'⟩ := List.cons.inj hlen'
      have hwhole : a ++ (as.flatten ++ s) = a' ++ (as'.flatten ++ s') := by
        simpa only [List.flatten_cons, List.append_assoc] using heq
      obtain ⟨rfl, htail⟩ := List.append_inj hwhole (ha.trans ha'.symm)
      obtain ⟨rfl, hrest⟩ := ih has has' htail
      exact ⟨rfl, hrest⟩

/-! ### Sets of words -/

/-- A set of words of which none starts another. -/
def PrefixFree (L : Set (List β)) : Prop := Separable (· ∈ L) id

theorem PrefixFree.eq_of_prefix {L : Set (List β)} (h : PrefixFree L) {a b : List β} (ha : a ∈ L)
    (hb : b ∈ L) (hab : a <+: b) : a = b := by
  obtain ⟨s, hs⟩ := hab
  exact (h ha hb (hs.trans (List.append_nil b).symm)).1

theorem PrefixFree.mono {L M : Set (List β)} (h : PrefixFree M) (hLM : L ⊆ M) : PrefixFree L :=
  fun _ _ _ _ ha hb heq => h (hLM ha) (hLM hb) heq

/-- Words of one length. -/
theorem prefixFree_length (n : ℕ) : PrefixFree {a : List β | a.length = n} :=
  separable_of_length (fun _ h => h) fun _ _ _ _ h => h

/-- A word, and behind it one of a set that may depend on it. -/
theorem PrefixFree.bind {L : Set (List β)} (h : PrefixFree L) {M : List β → Set (List β)}
    (hM : ∀ a ∈ L, PrefixFree (M a)) : PrefixFree {w | ∃ a ∈ L, ∃ b ∈ M a, w = a ++ b} := by
  rintro w w' s s' ⟨a, ha, b, hb, rfl⟩ ⟨a', ha', b', hb', rfl⟩ heq
  have hwhole : a ++ (b ++ s) = a' ++ (b' ++ s') := by
    simpa only [id, List.append_assoc] using heq
  obtain ⟨rfl, hrest⟩ := h ha ha' hwhole
  obtain ⟨rfl, hs⟩ := hM a ha hb hb' hrest
  exact ⟨rfl, hs⟩

/-- Streams of non-empty words of a prefix-free set: where one starts another, it is split alike. -/
theorem PrefixFree.prefix_of_flatten_prefix {L : Set (List β)} (h : PrefixFree L) (hne : [] ∉ L) :
    ∀ {ws vs : List (List β)}, (∀ w ∈ ws, w ∈ L) → (∀ v ∈ vs, v ∈ L) →
      ws.flatten <+: vs.flatten → ws <+: vs
  | [], vs, _, _, _ => List.nil_prefix
  | w :: ws, [], hws, _, hpre => by
    have hnil : w = [] := (List.append_eq_nil_iff.mp (List.prefix_nil.mp hpre)).1
    exact absurd (hnil ▸ hws w List.mem_cons_self) hne
  | w :: ws, v :: vs, hws, hvs, ⟨s, hs⟩ => by
    have hwhole : w ++ (ws.flatten ++ s) = v ++ vs.flatten := by
      rw [← List.append_assoc, ← List.flatten_cons, hs, List.flatten_cons]
    obtain ⟨rfl, hrest⟩ := h (hws w List.mem_cons_self) (hvs v List.mem_cons_self) hwhole
    have hpre := h.prefix_of_flatten_prefix hne (fun u hu => hws u (List.mem_cons_of_mem _ hu))
      (fun u hu => hvs u (List.mem_cons_of_mem _ hu)) ⟨s, hrest⟩
    exact List.cons_prefix_cons.mpr ⟨rfl, hpre⟩

end PrefixCode
