import DistributedCaching.CacheCells
import DistributedCaching.CacheContents

/-!
# The map behind the cache

What the cache is for, as one sequential map: a map with room for `capacity` keys,
in which a `Get` at time `t` sees an entry up to its expiry.  `MapStep` gives its
steps.

A step of a call on the cache is a step of such a map (`Shadows.advance`), and only
the sections of `Set` and `Delete` change it.  The map does not drop an entry
because it has expired, as a `Get` on the cache does; it keeps such an entry until
its key is stored or deleted, or until a new key needs the room.
-/

namespace Cache

open Go Eviction InMemoryCache

/-! ## The sequential map -/

/-- The keys with their values and expiries. -/
abbrev ExpiryMap := GoMap String (Bytes × Time)

inductive MapOp
  | get (key : String)
  | set (key : String) (value : Bytes) (expiresAt : Time)
  | delete (key : String)
  /-- A `Set` whose TTL is not allowed. -/
  | refused
  deriving DecidableEq, Repr

/-- The steps of a map whose entries with expiry `e` are seen at the times `t` with
`shows e t`.  A `Set` of a new key at capacity may drop another key. -/
inductive MapStep (shows : Time → Time → Prop) (capacity : Nat) :
    ExpiryMap → Time → MapOp → Result → ExpiryMap → Prop
  | hit {m : ExpiryMap} {t : Time} {key : String} {value : Bytes} {expiresAt : Time}
      (hkey : m.lookup key = some (value, expiresAt)) (hshows : shows expiresAt t) :
      MapStep shows capacity m t (.get key) (.got (some value)) m
  | miss {m : ExpiryMap} {t : Time} {key : String}
      (hnot : ∀ value expiresAt, m.lookup key = some (value, expiresAt) → ¬ shows expiresAt t) :
      MapStep shows capacity m t (.get key) (.got none) m
  | set {m : ExpiryMap} {t : Time} {key : String} {value : Bytes} {expiresAt : Time} :
      MapStep shows capacity m t (.set key value expiresAt) .stored
        (m.insert key (value, expiresAt))
  | replace {m : ExpiryMap} {t : Time} {key : String} {value : Bytes} {expiresAt : Time}
      {victim : String} (hnew : key ∉ m) (hfull : m.len = capacity) (hvictim : victim ∈ m) :
      MapStep shows capacity m t (.set key value expiresAt) .stored
        ((m.erase victim).insert key (value, expiresAt))
  | delete {m : ExpiryMap} {t : Time} {key : String} :
      MapStep shows capacity m t (.delete key) .deleted (m.erase key)
  | refuse {m : ExpiryMap} {t : Time} {e : SetError} :
      MapStep shows capacity m t .refused (.rejected e) m

/-- The steps that keep the map within its capacity. -/
def BoundedMapStep (shows : Time → Time → Prop) (capacity : Nat) (m : ExpiryMap) (t : Time)
    (op : MapOp) (result : Result) (m' : ExpiryMap) : Prop :=
  MapStep shows capacity m t op result m' ∧ m'.len ≤ capacity

/-- An entry is seen up to its expiry, and always if the expiry is the zero time. -/
def ShowsUntil (expiresAt t : Time) : Prop := expiresAt = 0 ∨ t ≤ expiresAt

/-! ## The map behind the cache -/

section Shadows

variable {P : Type}

/-- **The map behind the cache**: it has what the cache has, and maybe entries that the
cache has dropped because their expiry had passed. -/
structure Shadows (passed : Time → Prop) (c : InMemoryCache P) (m : ExpiryMap) : Prop where
  agree : ∀ key x, c.stored key = some x → m.lookup key = some x
  dropped : ∀ key value expiresAt, c.stored key = none →
    m.lookup key = some (value, expiresAt) → expiresAt ≠ 0 ∧ passed expiresAt
  within : m.len ≤ c.capacity

/-- A key has nothing stored exactly if it is not there. -/
theorem stored_eq_none_iff {c : InMemoryCache P} {key : String} :
    c.stored key = none ↔ key ∉ c.entries := by
  simp [stored, entry, AList.lookup_eq_none]

/-- What is stored under a key is what its cell holds. -/
theorem stored_of_lookup {c : InMemoryCache P} {key : String} {r : Nat}
    (h : c.entries.lookup key = some r) : c.stored key = some (c.cell r).2 := by
  simp [stored, entry, h, cell]

variable {passed passed' : Time → Prop} {c c' : InMemoryCache P} {m : ExpiryMap} {key : String}
  {value : Bytes} {expiresAt : Time}

/-- The map has every key of the cache. -/
theorem Shadows.mem (h : Shadows passed c m) (hkey : key ∈ c.entries) : key ∈ m := by
  cases hstored : c.stored key with
  | none => exact absurd hkey (stored_eq_none_iff.mp hstored)
  | some x => exact GoMap.mem_iff_lookup.mpr ⟨x, h.agree key x hstored⟩

theorem Shadows.keys_subset (h : Shadows passed c m) : c.entries.keys ⊆ m.keys :=
  fun _ hk => AList.mem_keys.mp (h.mem (AList.mem_keys.mpr hk))

/-- If the cache has fewer keys than the map, the map has one that the cache has not. -/
theorem exists_notMem_entries (hlt : c.len < m.len) :
    ∃ g ∈ m, g ∉ c.entries := by
  by_contra hnone
  have hsubset : m.keys ⊆ c.entries.keys := by
    intro k hk
    by_contra hkc
    exact hnone ⟨k, AList.mem_keys.mpr hk, fun hmem => hkc (AList.mem_keys.mp hmem)⟩
  have hlen := (List.subperm_of_subset m.keys_nodup hsubset).length_le
  exact absurd hlen (Nat.not_le.mpr hlt)

/-- A full cache has all the keys of the map. -/
theorem Shadows.full (h : Shadows passed c m) (hfull : c.len = c.capacity) :
    m.len = c.capacity ∧ ∀ k, k ∈ m → k ∈ c.entries := by
  have hsub := List.subperm_of_subset c.entries.keys_nodup h.keys_subset
  have hle : m.len ≤ c.len := hfull ▸ h.within
  have hperm := hsub.perm_of_length_le hle
  refine ⟨hperm.length_eq.symm.trans hfull, fun k hk => ?_⟩
  exact AList.mem_keys.mpr (hperm.mem_iff.mpr (AList.mem_keys.mp hk))

/-- A change of the cache that leaves the contents alone. -/
theorem Shadows.same (h : Shadows passed c m) (hpassed : ∀ e, passed e → passed' e)
    (hstored : ∀ k, c'.stored k = c.stored k) (hcap : c'.capacity = c.capacity) :
    Shadows passed' c' m where
  agree k x hk := h.agree k x (hstored k ▸ hk)
  dropped k value expiresAt hk hm :=
    (h.dropped k value expiresAt (hstored k ▸ hk) hm).imp_right (hpassed expiresAt)
  within := hcap ▸ h.within

/-- A key is stored that the map has, or has room for. -/
theorem Shadows.insert (h : Shadows passed c m) (hpassed : ∀ e, passed e → passed' e)
    (hself : c'.stored key = some (value, expiresAt))
    (hother : ∀ k, k ≠ key → c'.stored k = c.stored k) (hcap : c'.capacity = c.capacity)
    (hroom : key ∈ m ∨ GoMap.len m < c.capacity) :
    Shadows passed' c' (m.insert key (value, expiresAt)) where
  agree k x hk := by
    by_cases hkey : k = key
    · subst hkey
      rw [AList.lookup_insert, ← hself, hk]
    · rw [AList.lookup_insert_ne hkey]
      exact h.agree k x (hother k hkey ▸ hk)
  dropped k v e hk hm := by
    by_cases hkey : k = key
    · subst hkey
      rw [hself] at hk
      cases hk
    · rw [AList.lookup_insert_ne hkey] at hm
      exact (h.dropped k v e (hother k hkey ▸ hk) hm).imp_right (hpassed e)
  within := by
    rw [hcap]
    by_cases hkey : key ∈ m
    · rw [GoMap.len_insert_present _ hkey]
      exact h.within
    · rw [GoMap.len_insert_new _ hkey]
      exact hroom.resolve_left hkey

/-- A key of the map is dropped. -/
theorem Shadows.erase {victim : String} (h : Shadows passed c m)
    (hpassed : ∀ e, passed e → passed' e) (hgone : c'.stored victim = none)
    (hother : ∀ k, k ≠ victim → c'.stored k = c.stored k) (hcap : c'.capacity = c.capacity) :
    Shadows passed' c' (m.erase victim) where
  agree k x hk := by
    by_cases hkey : k = victim
    · subst hkey
      rw [hgone] at hk
      cases hk
    · rw [AList.lookup_erase_ne hkey]
      exact h.agree k x (hother k hkey ▸ hk)
  dropped k v e hk hm := by
    by_cases hkey : k = victim
    · subst hkey
      rw [AList.lookup_erase] at hm
      cases hm
    · rw [AList.lookup_erase_ne hkey] at hm
      exact (h.dropped k v e (hother k hkey ▸ hk) hm).imp_right (hpassed e)
  within := by
    rw [hcap]
    refine Nat.le_trans ?_ h.within
    simp only [GoMap.len, AList.keys_erase]
    exact List.length_erase_le

end Shadows

section Steps

variable {P : Type} [LawfulPolicy P] {passed passed' : Time → Prop} {c c' : InMemoryCache P}
  {m : ExpiryMap} {inp : Inputs} {call call' : Call}

/-- The section of a `Set` is a `Set` of the map. -/
theorem Shadows.store (h : Shadows passed c m) (hpassed : ∀ e, passed e → passed' e)
    (hsound : Sound c) (hcap : 1 ≤ c.capacity) (key : String) (value : Bytes)
    (expiresAt now policyNow : Time) (draw : Nat) (t : Time) :
    ∃ m', Shadows passed' (c.store key value expiresAt now policyNow draw) m' ∧
      MapStep ShowsUntil c.capacity m t (.set key value expiresAt) .stored m' := by
  have hself := stored_store_self c key value expiresAt now policyNow draw
  rcases store_cases hsound hcap key value expiresAt now policyNow draw with
    ⟨r, hr, hstore⟩ | ⟨hnew, hroom, hstore⟩ | ⟨hnew, hfull, victim, hvictim, _, hstore⟩
  · rw [hstore] at hself ⊢
    have hother : ∀ k, k ≠ key →
        (c.upsert key r value expiresAt now policyNow).stored k = c.stored k := fun k hk => by
      rw [stored, entry_upsert_ne hsound.addressed hr _ _ _ _ hk, ← stored]
    have hkey : key ∈ m := h.mem (GoMap.mem_iff_lookup.mpr ⟨r, hr⟩)
    exact ⟨_, h.insert hpassed hself hother rfl (Or.inl hkey), .set⟩
  · rw [hstore] at hself ⊢
    have hother : ∀ k, k ≠ key →
        (c.add key value expiresAt now policyNow).stored k = c.stored k := fun k hk => by
      rw [stored, entry_add_ne hsound.addressed _ _ _ _ hk, ← stored]
    by_cases hspace : key ∈ m ∨ GoMap.len m < c.capacity
    · exact ⟨_, h.insert hpassed hself hother rfl hspace, .set⟩
    · -- The cache has room and the map has not: an expired entry gives way.
      obtain ⟨hkey, hlt⟩ := not_or.mp hspace
      have hfull : GoMap.len m = c.capacity := Nat.le_antisymm h.within (Nat.not_lt.mp hlt)
      obtain ⟨g, hg, hgone⟩ := exists_notMem_entries (hfull ▸ hroom)
      have herase : Shadows passed c (m.erase g) :=
        h.erase (fun _ he => he) (stored_eq_none_iff.mpr hgone) (fun _ _ => rfl) rfl
      have hspace' : GoMap.len (m.erase g) < c.capacity := by
        have hlen := GoMap.len_erase_present hg
        omega
      exact ⟨_, herase.insert hpassed hself hother rfl (Or.inr hspace'), .replace hkey hfull hg⟩
  · rw [hstore] at hself ⊢
    have hother : ∀ k, k ≠ key →
        ((c.drop victim).add key value expiresAt now policyNow).stored k =
          (c.drop victim).stored k := fun k hk => by
      rw [stored, entry_add_ne (addressed_drop hsound.addressed victim) _ _ _ _ hk, ← stored]
    obtain ⟨hmfull, hall⟩ := h.full hfull
    have hg : victim ∈ m := h.mem hvictim
    have herase : Shadows passed (c.drop victim) (m.erase victim) := by
      refine h.erase (fun _ he => he) (by simp [stored]) (fun k hk => ?_) rfl
      rw [stored, entry_drop_ne c hk, ← stored]
    have hspace : GoMap.len (m.erase victim) < c.capacity := by
      have hlen := GoMap.len_erase_present hg
      omega
    exact ⟨_, herase.insert hpassed hself hother rfl (Or.inr hspace),
      .replace (fun hkey => hnew (hall key hkey)) hmfull hg⟩

/-- What a step of a call does to the map. -/
def MapEffect (capacity : Nat) (t : Time) (call : Call) (m m' : ExpiryMap) : Prop :=
  match call with
  | .setStore key value expiresAt _ =>
      BoundedMapStep ShowsUntil capacity m t (.set key value expiresAt) .stored m'
  | .deleteLocked key => BoundedMapStep ShowsUntil capacity m t (.delete key) .deleted m'
  | _ => m' = m

/-- **Every step of a call is a step of the map**, and only the section of a `Set` or a
`Delete` changes it. -/
theorem Shadows.advance (h : Shadows passed c m) (hpassed : ∀ e, passed e → passed' e)
    (hnow : ∀ e, e < inp.now → passed' e) (hsound : Sound c) (hcap : 1 ≤ c.capacity)
    (hadvance : Cache.advance c inp call = some (c', call')) :
    ∃ m', Shadows passed' c' m' ∧ MapEffect c.capacity inp.now call m m' := by
  cases advance_section hadvance with
  | unlocked call hcall =>
      refine ⟨m, h.same hpassed (fun _ => rfl) rfl, ?_⟩
      cases call <;> first | rfl | cases hcall
  | touched key r =>
      exact ⟨m, h.same hpassed (stored_touch c key r inp.now inp.policyNow) rfl, rfl⟩
  | reaped key =>
      rcases reap_cases c key inp.now with hsame | ⟨r, hr, hexpired, hdrop⟩
      · rw [hsame]
        exact ⟨m, h.same hpassed (fun _ => rfl) rfl, rfl⟩
      · rw [hdrop]
        refine ⟨m, ⟨?_, ?_, h.within⟩, rfl⟩
        · intro k x hk
          by_cases hkey : k = key
          · subst hkey
            simp [stored] at hk
          · rw [stored, entry_drop_ne c hkey] at hk
            exact h.agree k x hk
        · intro k v e hk hm
          by_cases hkey : k = key
          · -- The entry that is dropped has expired by now.
            subst hkey
            rw [h.agree k _ (stored_of_lookup hr)] at hm
            cases hm
            obtain ⟨hzero, hlt⟩ := isExpired_iff.mp hexpired
            exact ⟨hzero, hnow _ hlt⟩
          · rw [stored, entry_drop_ne c hkey] at hk
            exact (h.dropped k v e hk hm).imp_right (hpassed e)
  | stored key value expiresAt now =>
      obtain ⟨m', hm', hstep⟩ := h.store hpassed hsound hcap key value expiresAt now
        inp.policyNow inp.draw inp.now
      refine ⟨m', hm', hstep, ?_⟩
      have hwithin := hm'.within
      rwa [capacity_store] at hwithin
  | deleted key =>
      have hshadows : Shadows passed' (c.delete key) (m.erase key) :=
        h.erase hpassed (stored_delete_self c key) (fun _ hk => stored_delete_ne c hk)
          (capacity_delete key)
      refine ⟨_, hshadows, .delete, ?_⟩
      have hwithin := hshadows.within
      rwa [capacity_delete] at hwithin

end Steps

end Cache
