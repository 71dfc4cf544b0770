import Mathlib.Data.Finmap

/-!
# The pairs of a finite map

A finite map is also the multiset of its pairs. `pairs f` reads the values through `f`, which is
how an implementation may store them. Inserting and erasing a key change the multiset by one
pair, so an implementation that changes its own pairs the same way keeps representing the map.
-/

namespace Finmap

variable {K V W : Type*} (f : V → W) {m : Finmap fun _ : K => V} {k : K} {v : V}

/-- The pairs of the map, with the values read through `f`. -/
def pairs (m : Finmap fun _ : K => V) : Multiset (K × W) := m.entries.map fun s => (s.1, f s.2)

@[simp] theorem pairs_empty : pairs f (∅ : Finmap fun _ : K => V) = 0 := rfl

@[simp] theorem card_pairs : Multiset.card (pairs f m) = Multiset.card m.entries :=
  Multiset.card_map _ _

/-- Every key has one pair. -/
theorem nodup_map_fst_pairs (m : Finmap fun _ : K => V) : ((pairs f m).map Prod.fst).Nodup := by
  have hkeys : (pairs f m).map Prod.fst = m.entries.keys := by
    rw [pairs, Multiset.map_map]
    rfl
  rw [hkeys, Multiset.nodup_keys]
  exact m.nodupKeys

variable [DecidableEq K]

theorem mem_pairs {w : W} : (k, w) ∈ pairs f m ↔ ∃ v, m.lookup k = some v ∧ f v = w := by
  rw [pairs, Multiset.mem_map]
  constructor
  · intro hp
    obtain ⟨⟨k', v⟩, hmem, heq⟩ := hp
    obtain ⟨rfl, rfl⟩ := Prod.mk.inj heq
    exact ⟨v, lookup_eq_some_iff.2 hmem, rfl⟩
  · intro hp
    obtain ⟨v, hv, rfl⟩ := hp
    exact ⟨⟨k, v⟩, lookup_eq_some_iff.1 hv, rfl⟩

theorem pairs_insert_of_notMem (hk : k ∉ m) :
    pairs f (m.insert k v) = (k, f v) ::ₘ pairs f m := by
  rw [pairs, entries_insert_of_notMem hk, Multiset.map_cons]
  rfl

theorem insert_erase_of_lookup (hv : m.lookup k = some v) : (m.erase k).insert k v = m := by
  refine ext_lookup ?_
  intro x
  by_cases hx : x = k
  · rw [hx, lookup_insert, hv]
  · rw [lookup_insert_of_ne _ hx, lookup_erase_ne hx]

theorem insert_erase_eq (m : Finmap fun _ : K => V) (k : K) (v : V) :
    (m.erase k).insert k v = m.insert k v := by
  refine ext_lookup ?_
  intro x
  by_cases hx : x = k
  · rw [hx, lookup_insert, lookup_insert]
  · rw [lookup_insert_of_ne _ hx, lookup_insert_of_ne _ hx, lookup_erase_ne hx]

theorem erase_of_notMem (hk : k ∉ m) : m.erase k = m := by
  refine ext_lookup ?_
  intro x
  by_cases hx : x = k
  · rw [hx, lookup_erase, lookup_eq_none.2 hk]
  · rw [lookup_erase_ne hx]

theorem pairs_of_lookup (hv : m.lookup k = some v) :
    pairs f m = (k, f v) ::ₘ pairs f (m.erase k) := by
  have hsplit := pairs_insert_of_notMem (v := v) f (notMem_erase_self (a := k) (s := m))
  rwa [insert_erase_of_lookup hv] at hsplit

theorem pairs_insert (m : Finmap fun _ : K => V) (k : K) (v : V) :
    pairs f (m.insert k v) = (k, f v) ::ₘ pairs f (m.erase k) := by
  rw [← insert_erase_eq, pairs_insert_of_notMem f notMem_erase_self]

/-- Pairs with each key once are those of a map. -/
theorem exists_pairs_eq {s : Multiset (K × W)} (hvalue : ∀ p ∈ s, ∃ v, f v = p.2)
    (hnodup : (s.map Prod.fst).Nodup) : ∃ m : Finmap fun _ : K => V, pairs f m = s := by
  induction s using Multiset.induction with
  | empty => exact ⟨∅, pairs_empty f⟩
  | cons p s ih =>
    rw [Multiset.map_cons, Multiset.nodup_cons] at hnodup
    obtain ⟨m, rfl⟩ := ih (fun q hq => hvalue q (Multiset.mem_cons_of_mem hq)) hnodup.2
    obtain ⟨v, hv⟩ := hvalue p (Multiset.mem_cons_self p _)
    have hk : p.1 ∉ m := by
      intro hmem
      obtain ⟨w, hw⟩ := mem_iff.1 hmem
      exact hnodup.1 (Multiset.mem_map.2 ⟨(p.1, f w), (mem_pairs f).2 ⟨w, hw, rfl⟩, rfl⟩)
    refine ⟨m.insert p.1 v, ?_⟩
    rw [pairs_insert_of_notMem f hk, hv]

end Finmap
