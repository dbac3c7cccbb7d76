import DistributedCaching.GoRuntime

/-!
# Eviction policies

The interface `shared.EvictionPolicy`, and what a policy is for.  A cache tells
its policy about every key it stores, touches and drops, and asks it for a key
to drop when it is full.  Whatever order a policy keeps, it has to know exactly
the keys of the cache: `LawfulPolicy` states this as a contract over an abstract
list of tracked keys, and is all that the cache relies on.

A policy that reads the clock or draws a random number takes the reading or the
draw as an argument.
-/

namespace Eviction

open Go

/-- The interface `shared.EvictionPolicy`. -/
class EvictionPolicy (P : Type) where
  /-- `OnAccess(key)`, with the clock reading it may take. -/
  onAccess : P → String → Time → P
  /-- `OnInsert(key, expiresAt)`, with the clock reading it may take. -/
  onInsert : P → String → Time → Time → P
  /-- `OnEvict(key)`. -/
  onEvict : P → String → P
  /-- `Evict()`, with the random number it may draw. -/
  evict : P → Nat → Option String

/-- **The contract of a policy**: it tracks the keys it has been told about, each
once, and evicts one of them if there is one. -/
class LawfulPolicy (P : Type) extends EvictionPolicy P where
  /-- The policy tracks exactly these keys. -/
  Tracks : P → List String → Prop
  nodup : ∀ {p ks}, Tracks p ks → ks.Nodup
  perm : ∀ {p ks ks'}, Tracks p ks → ks.Perm ks' → Tracks p ks'
  tracks_onAccess : ∀ {p ks}, Tracks p ks → ∀ key now, Tracks (onAccess p key now) ks
  tracks_onInsert : ∀ {p ks key}, Tracks p ks → key ∉ ks → ∀ expiresAt now,
    Tracks (onInsert p key expiresAt now) (key :: ks)
  tracks_onEvict : ∀ {p ks key}, Tracks p ks → key ∈ ks →
    Tracks (onEvict p key) (ks.erase key)
  evict_none : ∀ {p ks draw}, Tracks p ks → evict p draw = none → ks = []
  evict_some : ∀ {p ks draw key}, Tracks p ks → evict p draw = some key → key ∈ ks

/-! ## Nodes and the map that finds them

Three of the policies keep one node for each key in some structure of their own,
and a map from keys to nodes next to it. -/

section Index

variable {ρ : Type} {m : GoMap String ρ} {key : ρ → String} {L : List ρ}

/-- The map finds exactly the nodes of the list, each under its key. -/
structure IndexOf (m : GoMap String ρ) (key : ρ → String) (L : List ρ) : Prop where
  nodup : L.Nodup
  lookup : ∀ k r, m.lookup k = some r ↔ r ∈ L ∧ key r = k

theorem indexOf_empty (key : ρ → String) : IndexOf (∅ : GoMap String ρ) key [] where
  nodup := List.nodup_nil
  lookup := fun k r => by simp

/-- Different nodes hold different keys. -/
theorem IndexOf.keys_nodup (h : IndexOf m key L) : (L.map key).Nodup := by
  refine List.Nodup.map_on ?_ h.nodup
  intro r hr r' hr' heq
  have hfind := (h.lookup (key r) r).mpr ⟨hr, rfl⟩
  have hfind' := (h.lookup (key r) r').mpr ⟨hr', heq.symm⟩
  exact Option.some.inj (hfind.symm.trans hfind')

/-- The map and the list hold the same keys. -/
theorem IndexOf.keys_perm (h : IndexOf m key L) : m.keys.Perm (L.map key) := by
  rw [List.perm_ext_iff_of_nodup m.keys_nodup h.keys_nodup]
  intro k
  rw [← AList.mem_keys, GoMap.mem_iff_lookup, List.mem_map]
  exact exists_congr fun r => h.lookup k r

theorem IndexOf.perm {L' : List ρ} (h : IndexOf m key L) (hperm : L'.Perm L) :
    IndexOf m key L' where
  nodup := hperm.nodup_iff.mpr h.nodup
  lookup := fun k r => by rw [h.lookup, hperm.mem_iff]

/-- Changing data other than the keys of the nodes. -/
theorem IndexOf.congr {key' : ρ → String} (h : IndexOf m key L)
    (hkey : ∀ r ∈ L, key' r = key r) : IndexOf m key' L where
  nodup := h.nodup
  lookup := by
    intro k r
    rw [h.lookup]
    refine and_congr_right fun hr => ?_
    rw [hkey r hr]

/-- A new node under a new key. -/
theorem IndexOf.insert {key' : ρ → String} {k : String} {r : ρ} (h : IndexOf m key L)
    (hk : k ∉ m) (hr : r ∉ L) (hkey : ∀ x ∈ L, key' x = key x) (hnew : key' r = k) :
    IndexOf (m.insert k r) key' (r :: L) where
  nodup := List.nodup_cons.mpr ⟨hr, h.nodup⟩
  lookup := by
    intro k' x
    by_cases hk' : k' = k
    · subst hk'
      rw [AList.lookup_insert]
      constructor
      · intro heq
        cases heq
        exact ⟨List.mem_cons_self, hnew⟩
      · intro hboth
        obtain ⟨hx, hkx⟩ := hboth
        rcases List.mem_cons.mp hx with rfl | hx
        · rfl
        · refine absurd ?_ hk
          rw [hkey x hx] at hkx
          exact GoMap.mem_iff_lookup.mpr ⟨x, (h.lookup k' x).mpr ⟨hx, hkx⟩⟩
    · rw [AList.lookup_insert_ne hk', h.lookup]
      constructor
      · intro hboth
        obtain ⟨hx, hkx⟩ := hboth
        exact ⟨List.mem_cons_of_mem _ hx, (hkey x hx).trans hkx⟩
      · intro hboth
        obtain ⟨hx, hkx⟩ := hboth
        rcases List.mem_cons.mp hx with rfl | hx
        · exact absurd (hkx.symm.trans hnew) hk'
        · exact ⟨hx, (hkey x hx).symm.trans hkx⟩

/-- Dropping a node with its key. -/
theorem IndexOf.erase [DecidableEq ρ] {k : String} {r : ρ} (h : IndexOf m key L)
    (hr : m.lookup k = some r) : IndexOf (m.erase k) key (L.erase r) where
  nodup := h.nodup.erase r
  lookup := by
    intro k' x
    rw [h.nodup.mem_erase_iff]
    by_cases hk' : k' = k
    · subst hk'
      rw [AList.lookup_erase]
      constructor
      · intro heq
        cases heq
      · intro hboth
        obtain ⟨⟨hne, hx⟩, hkx⟩ := hboth
        have hx' := (h.lookup k' x).mpr ⟨hx, hkx⟩
        exact absurd (Option.some.inj (hx'.symm.trans hr)) hne
    · rw [AList.lookup_erase_ne hk', h.lookup]
      constructor
      · intro hboth
        obtain ⟨hx, hkx⟩ := hboth
        refine ⟨⟨?_, hx⟩, hkx⟩
        intro heq
        subst heq
        exact hk' (hkx.symm.trans ((h.lookup k x).mp hr).2)
      · intro hboth
        obtain ⟨⟨_, hx⟩, hkx⟩ := hboth
        exact ⟨hx, hkx⟩

/-- The keys left when a node is dropped. -/
theorem IndexOf.map_erase [DecidableEq ρ] {k : String} {r : ρ} (h : IndexOf m key L)
    (hr : m.lookup k = some r) : ((L.erase r).map key).Perm ((L.map key).erase k) := by
  obtain ⟨hmem, hk⟩ := (h.lookup k r).mp hr
  have hcons : (L.map key).Perm (k :: (L.erase r).map key) := by
    have := (List.perm_cons_erase hmem).map key
    rwa [List.map_cons, hk] at this
  have := hcons.erase k
  rw [List.erase_cons_head] at this
  exact this.symm

end Index

end Eviction
