import DistributedCaching.PrefixWorkload

/-!
# What a store into the Go prefix cache removes

`Store` makes room before it looks whether its hash is there, and the scan for the oldest
entry goes by a time that was read when the entry was built.  `History` is a cache next
to the times at which each hash was last used, by a `Lookup` that hit it or by a
`Store`.

The map is scanned in any order.  `Victim` says which entry every scan finds, if there is
one (`victim_iff`): the one with the earliest access time, apart from ties and from the
empty hash, which the scan takes for no entry yet.  A store into a full cache replaces in
place exactly if the victim is the entry of its own hash or, for a new hash, the one that
was not used for longest (`store_in_place_iff`).

As long as every entry is built after the preceding call, the times of the entries are in
the order of these uses (`Tracked`), and a full cache loses its least recently used entry
(`Tracked.oldest`).  Then the only thing that goes wrong is a store of a hash that is
already there: the least recently used entry is gone as well, unless it is its own
(`Timely.ready_iff`).
-/

namespace Llm

open Go

/-- A call of the cache, at a time. -/
inductive Call
  | lookup (prefixHash : String) (now : Time)
  | store (entry : PrefixCacheEntry) (range : RangeOrder) (now : Time)

/-- When the call is made. -/
def Call.now : Call → Time
  | .lookup _ now => now
  | .store _ _ now => now

/-- The access time that the call leaves in an entry. -/
def Call.stamp : Call → Time
  | .lookup _ now => now
  | .store entry _ _ => entry.lastAccessedAt

/-- The hash that the call is about. -/
def Call.hash : Call → String
  | .lookup prefixHash _ => prefixHash
  | .store entry _ _ => entry.prefixHash

/-- A cache, and when each hash was last used. -/
structure History where
  cache : PrefixCache
  lastUse : String → Time

namespace History

def init (maxSize : Int) : History := ⟨newPrefixCache maxSize, fun _ => 0⟩

/-- A `Lookup` uses a hash that it finds, and a `Store` uses its hash. -/
def call (u : History) : Call → History
  | .lookup prefixHash now =>
      { cache := (u.cache.lookup prefixHash now).2
        lastUse := if prefixHash ∈ u.cache.entries then Function.update u.lastUse prefixHash now
          else u.lastUse }
  | .store entry range now =>
      { cache := u.cache.store entry range
        lastUse := Function.update u.lastUse entry.prefixHash now }

/-- The cache after some calls. -/
def after (maxSize : Int) (calls : List Call) : History := calls.foldl call (init maxSize)

/-- The hash was not used for longer than any other. -/
def Oldest (u : History) (k : String) : Prop :=
  k ∈ u.cache.entries ∧ ∀ k' ∈ u.cache.entries, k' ≠ k → u.lastUse k < u.lastUse k'

end History

/-- **A store replaces in place**: an entry that is there is replaced and no other
removed; a new one takes the place of the least recently used one if the cache is full,
and of none if there is room; and the cache stays within its size. -/
structure InPlace (u : History) (entry : PrefixCacheEntry) (range : RangeOrder) : Prop where
  stored : (u.cache.store entry range).entries.lookup entry.prefixHash = some entry
  present : entry.prefixHash ∈ u.cache.entries → ∀ k, k ≠ entry.prefixHash →
    (u.cache.store entry range).entries.lookup k = u.cache.entries.lookup k
  full : entry.prefixHash ∉ u.cache.entries → (u.cache.entries.len : Int) = u.cache.maxSize →
    ∃ victim, u.Oldest victim ∧ victim ∉ (u.cache.store entry range).entries ∧
      ∀ k, k ≠ entry.prefixHash → k ≠ victim →
        (u.cache.store entry range).entries.lookup k = u.cache.entries.lookup k
  room : entry.prefixHash ∉ u.cache.entries → (u.cache.entries.len : Int) < u.cache.maxSize →
    ∀ k, k ≠ entry.prefixHash →
      (u.cache.store entry range).entries.lookup k = u.cache.entries.lookup k
  within : ((u.cache.store entry range).entries.len : Int) ≤ u.cache.maxSize

/-! ## What the scan finds -/

section Scan

variable {visited : List (String × PrefixCacheEntry)} {m : GoMap String PrefixCacheEntry}
  {h k : String}

/-- A scan ends with the key that it had, or with one that it has visited. -/
theorem foldl_scan_mem (oldest : String × Time) (rest : List (String × PrefixCacheEntry)) :
    (rest.foldl scan oldest).1 = oldest.1 ∨ (rest.foldl scan oldest).1 ∈ rest.map Prod.fst := by
  induction rest generalizing oldest with
  | nil => exact Or.inl rfl
  | cons x rest ih =>
      rw [List.foldl_cons, List.map_cons, List.mem_cons]
      rcases ih (scan oldest x) with hkept | hlater
      · rw [hkept]
        unfold scan
        split
        · exact Or.inr (Or.inl rfl)
        · exact Or.inl rfl
      · exact Or.inr (Or.inr hlater)

/-- The first entry is taken, whatever its hash. -/
theorem oldestKey_cons (x : String × PrefixCacheEntry) (rest : List (String × PrefixCacheEntry)) :
    oldestKey (x :: rest) = (rest.foldl scan (x.1, x.2.lastAccessedAt)).1 := by
  rw [oldestKey, List.foldl_cons, scan, if_pos (Or.inl rfl)]

/-- **A scan finds a hash of the map**, also with the empty hash in it. -/
theorem oldestKey_mem (hne : visited ≠ []) : oldestKey visited ∈ visited.map Prod.fst := by
  cases visited with
  | nil => exact absurd rfl hne
  | cons x rest =>
      rw [oldestKey_cons, List.map_cons, List.mem_cons]
      exact foldl_scan_mem _ rest

/-- A hash that is passed over is not found any more. -/
theorem oldestKey_ne_of_passed {x y : String × PrefixCacheEntry}
    {rest : List (String × PrefixCacheEntry)} (hrest : h ∉ rest.map Prod.fst)
    (hpassed : (scan (x.1, x.2.lastAccessedAt) y).1 ≠ h) : oldestKey (x :: y :: rest) ≠ h := by
  rw [oldestKey_cons, List.foldl_cons]
  intro hfound
  rcases foldl_scan_mem (scan (x.1, x.2.lastAccessedAt) y) rest with hkept | hlater
  · exact hpassed (hkept.symm.trans hfound)
  · exact hrest (hfound ▸ hlater)

/-- Later entries do not replace a named one that is not younger. -/
theorem foldl_scan_kept {t : Time} (hh : h ≠ "") {rest : List (String × PrefixCacheEntry)}
    (hrest : ∀ x ∈ rest, t ≤ x.2.lastAccessedAt) : rest.foldl scan (h, t) = (h, t) := by
  induction rest with
  | nil => rfl
  | cons x rest ih =>
      have hx : scan (h, t) x = (h, t) := by
        refine if_neg ?_
        intro hor
        exact hor.elim hh (Int.not_lt.mpr (hrest x List.mem_cons_self))
      rw [List.foldl_cons, hx, ih fun y hy => hrest y (List.mem_cons_of_mem _ hy)]

/-- An entry is found that is older than the named ones before it and not younger than those
after it. -/
theorem oldestKey_append {e : PrefixCacheEntry} {pre post : List (String × PrefixCacheEntry)}
    (hpre : ∀ x ∈ pre, x.1 = "" ∨ e.lastAccessedAt < x.2.lastAccessedAt)
    (hpost : ∀ x ∈ post, h ≠ "" ∧ e.lastAccessedAt ≤ x.2.lastAccessedAt) :
    oldestKey (pre ++ (h, e) :: post) = h := by
  have hbefore : (pre.foldl scan ("", 0)).1 = "" ∨
      e.lastAccessedAt < (pre.foldl scan ("", 0)).2 := by
    refine List.foldlRecOn (motive := fun o => o.1 = "" ∨ e.lastAccessedAt < o.2) pre scan
      (b := ("", 0)) (Or.inl rfl) ?_
    intro o ho x hx
    unfold scan
    split
    · exact hpre x hx
    · exact ho
  have htaken : scan (pre.foldl scan ("", 0)) (h, e) = (h, e.lastAccessedAt) := if_pos hbefore
  rw [oldestKey, List.foldl_append, List.foldl_cons, htaken]
  cases post with
  | nil => rfl
  | cons x rest =>
      rw [foldl_scan_kept (hpost x List.mem_cons_self).1 fun y hy => (hpost y hy).2]

/-- A range visits every hash once. -/
theorem RangeOrder.nodup_visit (range : RangeOrder) (m : GoMap String PrefixCacheEntry) :
    ((range.visit m).map Prod.fst).Nodup := by
  have hperm := (range.perm m).map Prod.fst
  rw [List.map_map] at hperm
  exact hperm.nodup_iff.mpr m.keys_nodup

/-- Two entries of a map can be the first ones that a range visits. -/
theorem exists_range_from {x y : String × PrefixCacheEntry} (hx : m.lookup x.1 = some x.2)
    (hy : m.lookup y.1 = some y.2) (hne : x.1 ≠ y.1) :
    ∃ (range : RangeOrder) (rest : List (String × PrefixCacheEntry)),
      range.visit m = x :: y :: rest := by
  have hx' : x ∈ RangeOrder.listed.visit m := RangeOrder.listed.mem_visit.mpr hx
  have hy' : y ∈ RangeOrder.listed.visit m := RangeOrder.listed.mem_visit.mpr hy
  obtain ⟨a, b, hab⟩ := List.append_of_mem hx'
  have hfirst : (RangeOrder.listed.visit m).Perm (x :: (a ++ b)) := hab ▸ List.perm_middle
  have hyrest : y ∈ a ++ b := by
    refine (List.mem_cons.mp (hfirst.mem_iff.mp hy')).resolve_left ?_
    intro heq
    exact hne (congrArg Prod.fst heq.symm)
  obtain ⟨c, d, hcd⟩ := List.append_of_mem hyrest
  have hboth : (x :: y :: (c ++ d)).Perm (RangeOrder.listed.visit m) := by
    refine (List.Perm.cons x ?_).trans hfirst.symm
    rw [hcd]
    exact List.perm_middle.symm
  classical
  refine ⟨⟨fun m' => if m' = m then x :: y :: (c ++ d) else RangeOrder.listed.visit m', ?_⟩,
    c ++ d, if_pos rfl⟩
  intro m'
  split
  · rename_i hm
    exact hm ▸ hboth
  · exact RangeOrder.listed.perm m'

/-- **The entry that every scan finds**: the only one; or one with a name that was accessed
before all others, or not after the empty hash. -/
def Victim (m : GoMap String PrefixCacheEntry) (h : String) : Prop :=
  h ∈ m ∧ ∀ k ∈ m, k ≠ h → h ≠ "" ∧
    (accessed m h < accessed m k ∨ k = "" ∧ accessed m h ≤ accessed m k)

theorem accessed_of_lookup {e : PrefixCacheEntry} (he : m.lookup k = some e) :
    accessed m k = e.lastAccessedAt := by
  rw [accessed, he]
  rfl

/-- Every scan finds the victim. -/
theorem Victim.oldestKey_eq (hv : Victim m h) (range : RangeOrder) :
    oldestKey (range.visit m) = h := by
  obtain ⟨hmem, hothers⟩ := hv
  obtain ⟨e, he⟩ := GoMap.mem_iff_lookup.mp hmem
  obtain ⟨pre, post, hsplit⟩ := List.append_of_mem (range.mem_visit.mpr he)
  have hnodup := range.nodup_visit m
  rw [hsplit, List.map_append, List.map_cons, List.nodup_append, List.nodup_cons] at hnodup
  have hother : ∀ x ∈ range.visit m, x.1 ≠ h → h ≠ "" ∧
      (e.lastAccessedAt < x.2.lastAccessedAt ∨
        x.1 = "" ∧ e.lastAccessedAt ≤ x.2.lastAccessedAt) := by
    intro x hx hne
    have hlookup : m.lookup x.1 = some x.2 := range.mem_visit.mp hx
    have hcase := hothers x.1 (GoMap.mem_iff_lookup.mpr ⟨x.2, hlookup⟩) hne
    rwa [accessed_of_lookup he, accessed_of_lookup hlookup] at hcase
  rw [hsplit] at hother ⊢
  apply oldestKey_append
  · intro x hx
    have hne : x.1 ≠ h :=
      hnodup.2.2 x.1 (List.mem_map_of_mem hx) h List.mem_cons_self
    rcases (hother x (List.mem_append_left _ hx) hne).2 with hlt | hempty
    · exact Or.inr hlt
    · exact Or.inl hempty.1
  · intro x hx
    have hne : x.1 ≠ h := by
      intro heq
      have hin : x.1 ∈ post.map Prod.fst := List.mem_map_of_mem hx
      exact hnodup.2.1.1 (heq ▸ hin)
    obtain ⟨hh, hcase⟩ := hother x (List.mem_append_right _ (List.mem_cons_of_mem _ hx)) hne
    refine ⟨hh, ?_⟩
    rcases hcase with hlt | hempty
    · exact Int.le_of_lt hlt
    · exact hempty.2

/-- The scan of a map that is not empty finds one of its hashes. -/
theorem oldestKey_visit_mem (range : RangeOrder) (hne : 0 < m.len) :
    oldestKey (range.visit m) ∈ m := by
  have hkeys : ((range.visit m).map Prod.fst).Perm m.keys := by
    have hperm := (range.perm m).map Prod.fst
    rwa [List.map_map] at hperm
  have hvisited : range.visit m ≠ [] := by
    intro hnil
    have hlength := hkeys.length_eq
    rw [hnil] at hlength
    simp only [GoMap.len] at hne
    simp only [List.map_nil, List.length_nil] at hlength
    omega
  exact AList.mem_keys.mpr (hkeys.mem_iff.mp (oldestKey_mem hvisited))

/-- Of two entries that are visited first, the scan must not lose the one that it is to
find. -/
theorem scan_of_found {x y : String × PrefixCacheEntry} (hx : m.lookup x.1 = some x.2)
    (hy : m.lookup y.1 = some y.2) (hne : x.1 ≠ y.1) (hmem : x.1 = h ∨ y.1 = h)
    (hfound : ∀ range : RangeOrder, oldestKey (range.visit m) = h) :
    (scan (x.1, x.2.lastAccessedAt) y).1 = h := by
  obtain ⟨range, rest, hvisit⟩ := exists_range_from hx hy hne
  have hnodup := range.nodup_visit m
  rw [hvisit, List.map_cons, List.map_cons, List.nodup_cons, List.nodup_cons] at hnodup
  have hrest : h ∉ rest.map Prod.fst := by
    rcases hmem with rfl | rfl
    · exact fun hin => hnodup.1 (List.mem_cons_of_mem _ hin)
    · exact hnodup.2.1
  by_contra hpassed
  exact oldestKey_ne_of_passed hrest hpassed (hvisit ▸ hfound range)

/-- **The victim is what all scans find.** -/
theorem victim_iff (hne : 0 < m.len) :
    Victim m h ↔ ∀ range : RangeOrder, oldestKey (range.visit m) = h := by
  constructor
  · intro hv range
    exact hv.oldestKey_eq range
  · intro hfound
    have hmem : h ∈ m := hfound .listed ▸ oldestKey_visit_mem .listed hne
    refine ⟨hmem, ?_⟩
    intro k hk hkh
    obtain ⟨e, he⟩ := GoMap.mem_iff_lookup.mp hmem
    obtain ⟨e', he'⟩ := GoMap.mem_iff_lookup.mp hk
    rw [accessed_of_lookup he, accessed_of_lookup he']
    have hhk := scan_of_found (x := (h, e)) (y := (k, e')) he he' hkh.symm (Or.inl rfl) hfound
    have hkh' := scan_of_found (x := (k, e')) (y := (h, e)) he' he hkh (Or.inr rfl) hfound
    unfold scan at hhk hkh'
    -- With the other one first the scan changes over, and with this one first it does not.
    have hstays : ¬ (h = "" ∨ e'.lastAccessedAt < e.lastAccessedAt) := by
      intro hchange
      rw [if_pos hchange] at hhk
      exact hkh hhk
    have hchanges : k = "" ∨ e.lastAccessedAt < e'.lastAccessedAt := by
      by_contra hnot
      rw [if_neg hnot] at hkh'
      exact hkh hkh'
    rw [not_or] at hstays
    refine ⟨hstays.1, ?_⟩
    rcases hchanges with hempty | hlt
    · exact Or.inr ⟨hempty, Int.not_lt.mp hstays.2⟩
    · exact Or.inl hlt

end Scan

/-! ## The store itself -/

/-- There is one least recently used hash. -/
theorem History.Oldest.unique {u : History} {k k' : String} (h : u.Oldest k)
    (h' : u.Oldest k') : k = k' := by
  by_contra hne
  exact absurd (h.2 k' h'.1 (Ne.symm hne)) (Int.not_lt.mpr (Int.le_of_lt (h'.2 k h.1 hne)))

section Store

variable {pc : PrefixCache} {entry : PrefixCacheEntry} {range : RangeOrder}

/-- With room, a store only adds or replaces its entry. -/
theorem entries_store_room (h : (pc.entries.len : Int) < pc.maxSize) :
    (pc.store entry range).entries = pc.entries.insert entry.prefixHash entry := by
  simp only [PrefixCache.store, if_neg (Int.not_le.mpr h)]

/-- In a full cache, a store removes what the scan finds first. -/
theorem entries_store_full (h : (pc.entries.len : Int) ≥ pc.maxSize) :
    (pc.store entry range).entries =
      (pc.entries.erase (oldestKey (range.visit pc.entries))).insert entry.prefixHash entry := by
  simp only [PrefixCache.store, if_pos h]

end Store

/-- A cache within its size. -/
structure Sized (u : History) : Prop where
  size : 1 ≤ u.cache.maxSize
  within : (u.cache.entries.len : Int) ≤ u.cache.maxSize

namespace Sized

variable {u : History} {entry : PrefixCacheEntry} {range : RangeOrder}

/-- A full cache has something to remove. -/
theorem scanned_mem (h : Sized u) (range : RangeOrder)
    (hfull : (u.cache.entries.len : Int) ≥ u.cache.maxSize) :
    oldestKey (range.visit u.cache.entries) ∈ u.cache.entries := by
  have hsize := h.size
  exact oldestKey_visit_mem range (by omega)

/-- A store keeps the cache within its size. -/
theorem len_store (h : Sized u) (entry : PrefixCacheEntry) (range : RangeOrder) :
    ((u.cache.store entry range).entries.len : Int) ≤ u.cache.maxSize := by
  by_cases hfull : (u.cache.entries.len : Int) ≥ u.cache.maxSize
  · rw [entries_store_full hfull]
    have hgone := GoMap.len_erase_present (h.scanned_mem range hfull)
    have hadd := GoMap.len_insert_le
      (u.cache.entries.erase (oldestKey (range.visit u.cache.entries))) entry.prefixHash entry
    have hwithin := h.within
    omega
  · rw [entries_store_room (by omega)]
    have hadd := GoMap.len_insert_le u.cache.entries entry.prefixHash entry
    omega

/-- **One call** keeps the cache within its size. -/
theorem call (h : Sized u) (c : Call) : Sized (u.call c) := by
  cases c with
  | lookup prefixHash now =>
      cases hx : u.cache.entries.lookup prefixHash with
      | none =>
          refine ⟨?_, ?_⟩
          · simpa [History.call, PrefixCache.lookup, hx] using h.size
          · simpa [History.call, PrefixCache.lookup, hx] using h.within
      | some x =>
          have hmem : prefixHash ∈ u.cache.entries := GoMap.mem_iff_lookup.mpr ⟨x, hx⟩
          refine ⟨?_, ?_⟩
          · simpa [History.call, PrefixCache.lookup, hx] using h.size
          · simpa [History.call, PrefixCache.lookup, hx, GoMap.len_insert_present _ hmem]
              using h.within
  | store entry range now => exact ⟨h.size, h.len_store entry range⟩

/-- **Every sequence of calls** keeps the cache within its size. -/
theorem calls (h : Sized u) (calls : List Call) : Sized (calls.foldl History.call u) := by
  induction calls generalizing u with
  | nil => exact h
  | cons c calls ih => exact ih (h.call c)

/-- Among the entries of a full cache, exactly the one that the scan finds is lost. -/
theorem lookup_store_full (hfull : (u.cache.entries.len : Int) ≥ u.cache.maxSize) {k : String}
    (hk : k ≠ entry.prefixHash) (hmem : k ∈ u.cache.entries) :
    (u.cache.store entry range).entries.lookup k = u.cache.entries.lookup k ↔
      k ≠ oldestKey (range.visit u.cache.entries) := by
  rw [entries_store_full hfull, AList.lookup_insert_ne hk]
  constructor
  · intro hsame heq
    rw [← heq, AList.lookup_erase] at hsame
    exact absurd hmem (AList.lookup_eq_none.mp hsame.symm)
  · intro hne
    exact AList.lookup_erase_ne hne

end Sized

/-- A new cache is within its size. -/
theorem sized_init {maxSize : Int} (hsize : 1 ≤ maxSize) : Sized (History.init maxSize) where
  size := hsize
  within := by
    show ((0 : Nat) : Int) ≤ maxSize
    omega

/-- **Ready for a store**: if the cache is full, the entry that every scan finds is that of
the hash itself or, for a new hash, the one that was not used for longest. -/
def History.Ready (u : History) (hash : String) : Prop :=
  (u.cache.entries.len : Int) ≥ u.cache.maxSize →
    ∃ victim, Victim u.cache.entries victim ∧
      (hash ∈ u.cache.entries → victim = hash) ∧ (hash ∉ u.cache.entries → u.Oldest victim)

namespace Sized

variable {u : History} {entry : PrefixCacheEntry} {range : RangeOrder}

/-- A scan that finds the right entry lets the store replace in place. -/
theorem inPlace (h : Sized u)
    (hright : (u.cache.entries.len : Int) ≥ u.cache.maxSize →
      (entry.prefixHash ∈ u.cache.entries →
        oldestKey (range.visit u.cache.entries) = entry.prefixHash) ∧
      (entry.prefixHash ∉ u.cache.entries →
        u.Oldest (oldestKey (range.visit u.cache.entries)))) :
    InPlace u entry range where
  stored := AList.lookup_insert _
  present := by
    intro hpresent k hk
    by_cases hfull : (u.cache.entries.len : Int) ≥ u.cache.maxSize
    · -- The victim is the entry that is replaced.
      rw [entries_store_full hfull, AList.lookup_insert_ne hk, (hright hfull).1 hpresent,
        AList.lookup_erase_ne hk]
    · rw [entries_store_room (by omega), AList.lookup_insert_ne hk]
  full := by
    intro hnew hlen
    have hfull : (u.cache.entries.len : Int) ≥ u.cache.maxSize := by omega
    have holdest := (hright hfull).2 hnew
    refine ⟨_, holdest, ?_, ?_⟩
    · rw [entries_store_full hfull, AList.mem_insert, AList.mem_erase]
      intro hmem
      rcases hmem with heq | hmem
      · exact hnew (heq ▸ holdest.1)
      · exact hmem.1 rfl
    · intro k hk hkv
      rw [entries_store_full hfull, AList.lookup_insert_ne hk, AList.lookup_erase_ne hkv]
  room := by
    intro _ hroom k hk
    rw [entries_store_room hroom, AList.lookup_insert_ne hk]
  within := h.len_store entry range

/-- **A store that replaces in place has found the right entry.** -/
theorem scanned_of_inPlace (h : Sized u) (hplace : InPlace u entry range)
    (hfull : (u.cache.entries.len : Int) ≥ u.cache.maxSize) :
    (entry.prefixHash ∈ u.cache.entries →
        oldestKey (range.visit u.cache.entries) = entry.prefixHash) ∧
      (entry.prefixHash ∉ u.cache.entries →
        u.Oldest (oldestKey (range.visit u.cache.entries))) := by
  have hscanned := h.scanned_mem range hfull
  have hlost : ∀ hne : oldestKey (range.visit u.cache.entries) ≠ entry.prefixHash,
      (u.cache.store entry range).entries.lookup (oldestKey (range.visit u.cache.entries)) ≠
        u.cache.entries.lookup (oldestKey (range.visit u.cache.entries)) :=
    fun hne hsame => (lookup_store_full hfull hne hscanned).mp hsame rfl
  constructor
  · intro hpresent
    by_contra hne
    exact hlost hne (hplace.present hpresent _ hne)
  · intro hnew
    have hwithin := h.within
    obtain ⟨victim, holdest, _, hothers⟩ := hplace.full hnew (by omega)
    have hne : oldestKey (range.visit u.cache.entries) ≠ entry.prefixHash :=
      fun heq => hnew (heq ▸ hscanned)
    have hsame : oldestKey (range.visit u.cache.entries) = victim := by
      by_contra hother
      exact hlost hne (hothers _ hne hother)
    rw [hsame]
    exact holdest

/-- **When a store replaces in place**, whatever the order of the scan. -/
theorem inPlace_iff (h : Sized u) (entry : PrefixCacheEntry) :
    (∀ range, InPlace u entry range) ↔ u.Ready entry.prefixHash := by
  have hsize := h.size
  constructor
  · intro hplace hfull
    have hne : 0 < u.cache.entries.len := by omega
    have hscanned := fun range => h.scanned_of_inPlace (hplace range) hfull
    by_cases hpresent : entry.prefixHash ∈ u.cache.entries
    · exact ⟨_, (victim_iff hne).mpr fun range => (hscanned range).1 hpresent,
        fun _ => rfl, fun hnew => absurd hpresent hnew⟩
    · -- All scans find a least recently used entry, of which there is only one.
      have holdest := (hscanned .listed).2 hpresent
      exact ⟨_, (victim_iff hne).mpr fun range => ((hscanned range).2 hpresent).unique holdest,
        fun hin => absurd hin hpresent, fun _ => holdest⟩
  · intro hready range
    apply h.inPlace
    intro hfull
    obtain ⟨victim, hvictim, hown, hnew⟩ := hready hfull
    rw [hvictim.oldestKey_eq range]
    exact ⟨hown, hnew⟩

end Sized

/-! ## Entries that are built in time -/

/-- Every entry was built after the preceding call, and what is stored has a hash. -/
structure Timely (calls : List Call) : Prop where
  increasing : calls.Pairwise fun c c' => c.now < c'.stamp
  built : ∀ c ∈ calls, c.stamp ≤ c.now
  named : ∀ entry range now, Call.store entry range now ∈ calls → entry.prefixHash ≠ ""

/-- **The times of the entries are in the order of the uses**, and all before the times of
the calls to come. -/
structure Tracked (m : GoMap String PrefixCacheEntry) (lastUse : String → Time)
    (rest : List Call) : Prop where
  named : ∀ k ∈ m, k ≠ ""
  past : ∀ k ∈ m, ∀ c ∈ rest, lastUse k < c.stamp
  read : ∀ k ∈ m, accessed m k ≤ lastUse k
  apart : ∀ k ∈ m, ∀ k' ∈ m, k ≠ k' → lastUse k < accessed m k' ∨ lastUse k' < accessed m k

variable {m : GoMap String PrefixCacheEntry} {lastUse : String → Time} {c : Call}
  {rest : List Call} {k k' : String} {x : PrefixCacheEntry}

theorem Timely.tail (h : Timely (c :: rest)) : Timely rest :=
  ⟨(List.pairwise_cons.mp h.increasing).2, fun c' hc' => h.built c' (List.mem_cons_of_mem _ hc'),
    fun entry range now hc' => h.named entry range now (List.mem_cons_of_mem _ hc')⟩

namespace Tracked

theorem tail (h : Tracked m lastUse (c :: rest)) : Tracked m lastUse rest :=
  ⟨h.named, fun k hk c' hc' => h.past k hk c' (List.mem_cons_of_mem _ hc'), h.read, h.apart⟩

/-- The other entries keep their order when one is removed. -/
theorem erase (h : Tracked m lastUse rest) (k : String) : Tracked (m.erase k) lastUse rest where
  named := fun k' hk' => h.named k' (AList.mem_erase.mp hk').2
  past := fun k' hk' => h.past k' (AList.mem_erase.mp hk').2
  read := by
    intro k' hk'
    obtain ⟨hne, hmem⟩ := AList.mem_erase.mp hk'
    rw [accessed_erase_ne hne]
    exact h.read k' hmem
  apart := by
    intro a ha b hb hab
    obtain ⟨hak, ha⟩ := AList.mem_erase.mp ha
    obtain ⟨hbk, hb⟩ := AList.mem_erase.mp hb
    rw [accessed_erase_ne hak, accessed_erase_ne hbk]
    exact h.apart a ha b hb hab

/-- **A call uses its hash**: the time that it leaves is later than every use before. -/
theorem use (h : Tracked m lastUse (c :: rest)) (htimely : Timely (c :: rest))
    (hnamed : c.hash ≠ "") (hx : x.lastAccessedAt = c.stamp) :
    Tracked (m.insert c.hash x) (Function.update lastUse c.hash c.now) rest where
  named := by
    intro k hk
    rcases (AList.mem_insert _).mp hk with rfl | hk
    · exact hnamed
    · exact h.named k hk
  past := by
    intro k hk c' hc'
    by_cases heq : k = c.hash
    · rw [heq, Function.update_self]
      exact (List.pairwise_cons.mp htimely.increasing).1 c' hc'
    · rw [Function.update_of_ne heq]
      exact h.past k (((AList.mem_insert _).mp hk).resolve_left heq) c' (List.mem_cons_of_mem _ hc')
  read := by
    intro k hk
    by_cases heq : k = c.hash
    · rw [heq, accessed_insert_self, Function.update_self, hx]
      exact htimely.built c List.mem_cons_self
    · rw [accessed_insert_ne heq, Function.update_of_ne heq]
      exact h.read k (((AList.mem_insert _).mp hk).resolve_left heq)
  apart := by
    have hlast : ∀ b ∈ m.insert c.hash x, b ≠ c.hash →
        Function.update lastUse c.hash c.now b < accessed (m.insert c.hash x) c.hash := by
      intro b hb hne
      rw [accessed_insert_self, Function.update_of_ne hne, hx]
      exact h.past b (((AList.mem_insert _).mp hb).resolve_left hne) c List.mem_cons_self
    intro a ha b hb hab
    by_cases hac : a = c.hash
    · rw [hac] at hab ⊢
      exact Or.inr (hlast b hb hab.symm)
    · by_cases hbc : b = c.hash
      · rw [hbc]
        exact Or.inl (hlast a ha hac)
      · rw [accessed_insert_ne hac, accessed_insert_ne hbc, Function.update_of_ne hac,
          Function.update_of_ne hbc]
        exact h.apart a (((AList.mem_insert _).mp ha).resolve_left hac) b
          (((AList.mem_insert _).mp hb).resolve_left hbc) hab

/-- **The scan finds the least recently used hash.** -/
theorem oldest (h : Tracked m lastUse rest) (range : RangeOrder) (hne : 0 < m.len) :
    oldestKey (range.visit m) ∈ m ∧
      ∀ k ∈ m, k ≠ oldestKey (range.visit m) → lastUse (oldestKey (range.visit m)) < lastUse k := by
  have hmem := oldestKey_visit_mem range hne
  refine ⟨hmem, ?_⟩
  have hvisited : range.visit m ≠ [] := by
    intro hnil
    obtain ⟨e, he⟩ := GoMap.mem_iff_lookup.mp hmem
    have hin := range.mem_visit.mpr he
    rw [hnil] at hin
    cases hin
  obtain ⟨z, hz, heq, hmin⟩ := oldestKey_min hvisited fun z hz =>
    h.named z.1 (GoMap.mem_iff_lookup.mpr ⟨z.2, range.mem_visit.mp hz⟩)
  rw [heq] at hmem ⊢
  intro k hk hkz
  obtain ⟨e, he⟩ := GoMap.mem_iff_lookup.mp hk
  have hle : accessed m z.1 ≤ accessed m k := by
    rw [accessed_of_lookup he, accessed_of_lookup (range.mem_visit.mp hz)]
    exact hmin (k, e) (range.mem_visit.mpr he)
  rcases h.apart z.1 hmem k hk hkz.symm with hlt | hlt
  · exact Int.lt_of_lt_of_le hlt (h.read k hk)
  · exact absurd (Int.le_trans hle (h.read k hk)) (Int.not_le.mpr hlt)

end Tracked

/-- A cache in order, within its size. -/
structure Kept (u : History) (rest : List Call) : Prop extends Sized u where
  tracked : Tracked u.cache.entries u.lastUse rest

namespace Kept

variable {u : History}

/-- A full cache loses the entry that was not used for longest. -/
theorem oldest (h : Kept u rest) (range : RangeOrder)
    (hfull : (u.cache.entries.len : Int) ≥ u.cache.maxSize) :
    u.Oldest (oldestKey (range.visit u.cache.entries)) := by
  have hsize := h.size
  exact h.tracked.oldest range (by omega)

/-- **One call** keeps the cache in order. -/
theorem call (h : Kept u (c :: rest)) (htimely : Timely (c :: rest)) : Kept (u.call c) rest := by
  refine ⟨h.toSized.call c, ?_⟩
  cases c with
  | lookup prefixHash now =>
      cases hx : u.cache.entries.lookup prefixHash with
      | none =>
          have hmem : prefixHash ∉ u.cache.entries := AList.lookup_eq_none.mp hx
          have hcall : u.call (.lookup prefixHash now) =
              ⟨{ u.cache with totalRequests := incInt64 u.cache.totalRequests }, u.lastUse⟩ := by
            simp [History.call, PrefixCache.lookup, hx, hmem]
          rw [hcall]
          exact h.tracked.tail
      | some x =>
          have hmem : prefixHash ∈ u.cache.entries := GoMap.mem_iff_lookup.mpr ⟨x, hx⟩
          let x' := { x with hitCount := incInt64 x.hitCount, lastAccessedAt := now }
          have hentries : (u.call (.lookup prefixHash now)).cache.entries =
              u.cache.entries.insert prefixHash x' := by
            simp [History.call, PrefixCache.lookup, hx, x']
          have huse : (u.call (.lookup prefixHash now)).lastUse =
              Function.update u.lastUse prefixHash now := by
            simp [History.call, hmem]
          rw [hentries, huse]
          exact h.tracked.use htimely (h.tracked.named prefixHash hmem) rfl
  | store entry range now =>
      have hnamed := htimely.named entry range now List.mem_cons_self
      show Tracked (u.cache.store entry range).entries _ rest
      by_cases hfull : (u.cache.entries.len : Int) ≥ u.cache.maxSize
      · rw [entries_store_full hfull]
        exact (h.tracked.erase _).use htimely hnamed rfl
      · rw [entries_store_room (by omega)]
        exact h.tracked.use htimely hnamed rfl

/-- **Every sequence of calls** keeps the cache in order. -/
theorem calls {calls : List Call} (h : Kept u (calls ++ rest))
    (htimely : Timely (calls ++ rest)) : Kept (calls.foldl History.call u) rest := by
  induction calls generalizing u with
  | nil => exact h
  | cons c calls ih => exact ih (h.call htimely) htimely.tail

/-- In a cache in order, every scan finds the least recently used entry, so only a hash that
is there already can find the cache not ready. -/
theorem ready_iff (h : Kept u rest) (hash : String) :
    u.Ready hash ↔ (hash ∈ u.cache.entries →
      (u.cache.entries.len : Int) < u.cache.maxSize ∨ u.Oldest hash) := by
  have hsize := h.size
  constructor
  · intro hready hpresent
    by_cases hroom : (u.cache.entries.len : Int) < u.cache.maxSize
    · exact Or.inl hroom
    · have hfull : (u.cache.entries.len : Int) ≥ u.cache.maxSize := by omega
      obtain ⟨victim, hvictim, hown, _⟩ := hready hfull
      have holdest := h.oldest .listed hfull
      rw [hvictim.oldestKey_eq, hown hpresent] at holdest
      exact Or.inr holdest
  · intro hcond hfull
    have holdest := h.oldest .listed hfull
    refine ⟨_, (victim_iff (by omega)).mpr fun range => (h.oldest range hfull).unique holdest,
      ?_, fun _ => holdest⟩
    intro hpresent
    exact holdest.unique ((hcond hpresent).resolve_left (by omega))

end Kept

/-- **Entries built in time**: if each one was built after the preceding call, a store
replaces in place unless its hash is in a full cache, and not the oldest one there. -/
theorem Timely.ready_iff {calls : List Call} (h : Timely calls) {maxSize : Int}
    (hsize : 1 ≤ maxSize) (hash : String) :
    (History.after maxSize calls).Ready hash ↔
      (hash ∈ (History.after maxSize calls).cache.entries →
        ((History.after maxSize calls).cache.entries.len : Int) <
            (History.after maxSize calls).cache.maxSize ∨
          (History.after maxSize calls).Oldest hash) := by
  have hempty : ∀ k, k ∉ (History.init maxSize).cache.entries := fun k => AList.notMem_empty k
  have hinit : Kept (History.init maxSize) (calls ++ []) :=
    ⟨sized_init hsize, fun k hk => absurd hk (hempty k), fun k hk => absurd hk (hempty k),
      fun k hk => absurd hk (hempty k), fun k hk => absurd hk (hempty k)⟩
  exact (hinit.calls ((List.append_nil calls).symm ▸ h)).ready_iff hash

/-- An entry for a hash, built at `built`. -/
def sampleEntry (prefixHash : String) (built : Time) : PrefixCacheEntry where
  prefixHash := prefixHash
  model := "Llama-3-8B"
  tokenCount := 3
  tflopsCost := 1
  costUSD := 1
  hitCount := 0
  cachedAt := built
  lastAccessedAt := built

/-- Entries for `a` and `b`, each stored when it was built. -/
def twoStores : List Call :=
  [.store (sampleEntry "a" 1) .listed 1, .store (sampleEntry "b" 2) .listed 2]

/-- The same two hashes, the later one with the earlier entry. -/
def crossedStores : List Call :=
  [.store (sampleEntry "a" 2) .listed 3, .store (sampleEntry "b" 1) .listed 4]

/-- **When a store replaces in place**: after any calls whatever, and whatever the order in
which the map is scanned, exactly if the cache is ready for the hash. -/
theorem store_in_place_iff (maxSize : Int) (hsize : 1 ≤ maxSize) (calls : List Call)
    (entry : PrefixCacheEntry) :
    (∀ range, InPlace (History.after maxSize calls) entry range) ↔
      (History.after maxSize calls).Ready entry.prefixHash :=
  ((sized_init hsize).calls calls).inPlace_iff entry

/-- A third entry takes the place of the first one, in a cache for two. -/
theorem store_in_place_third :
    (History.after 2 twoStores).cache.entries.keys = ["b", "a"] ∧
      ∀ range, InPlace (History.after 2 twoStores) (sampleEntry "c" 3) range := by
  have hkeys : (History.after 2 twoStores).cache.entries.keys = ["b", "a"] := by decide
  refine ⟨hkeys, (store_in_place_iff 2 (by decide) twoStores (sampleEntry "c" 3)).mpr ?_⟩
  have hother : ∀ k ∈ (History.after 2 twoStores).cache.entries, k ≠ "a" → k = "b" := by
    intro k hk hne
    have hmem := AList.mem_keys.mp hk
    rw [hkeys, List.mem_cons, List.mem_singleton] at hmem
    exact hmem.resolve_right hne
  intro _
  refine ⟨"a", ⟨by decide, ?_⟩, fun hmem => absurd hmem (by decide), fun _ => ⟨by decide, ?_⟩⟩
  · intro k hk hne
    rw [hother k hk hne]
    exact ⟨by decide, Or.inl (by decide)⟩
  · intro k hk hne
    rw [hother k hk hne]
    decide

/-- Of two entries that are stored in the other order than they were built, a third one
removes the one that was stored last. -/
theorem crossed_store_removes_newest :
    "b" ∉ ((History.after 2 crossedStores).cache.store (sampleEntry "c" 5) .listed).entries ∧
      ¬ InPlace (History.after 2 crossedStores) (sampleEntry "c" 5) .listed := by
  refine ⟨by decide, ?_⟩
  intro hplace
  obtain ⟨victim, holdest, hgone, _⟩ := hplace.full (by decide) (by decide)
  have hvictim : victim = "a" := by
    by_contra hne
    have hkeys : (History.after 2 crossedStores).cache.entries.keys = ["b", "a"] := by decide
    have hmem := AList.mem_keys.mp holdest.1
    rw [hkeys, List.mem_cons, List.mem_singleton] at hmem
    have hlt := holdest.2 "a" (by decide) (Ne.symm hne)
    rw [hmem.resolve_right hne] at hlt
    exact absurd hlt (by decide)
  rw [hvictim] at hgone
  exact absurd hgone (by decide)

/-- **Storing `b` again removes `a`**, in a full cache for two. -/
theorem store_removes_another :
    "b" ∈ (History.after 2 twoStores).cache.entries ∧
      "a" ∈ (History.after 2 twoStores).cache.entries ∧
      "a" ∉ ((History.after 2 twoStores).cache.store (sampleEntry "b" 3) .listed).entries ∧
      ¬ InPlace (History.after 2 twoStores) (sampleEntry "b" 3) .listed := by
  have hgone :
      "a" ∉ ((History.after 2 twoStores).cache.store (sampleEntry "b" 3) .listed).entries := by
    decide
  refine ⟨by decide, by decide, hgone, ?_⟩
  intro hplace
  have hkept := hplace.present (by decide) "a" (by decide)
  rw [AList.lookup_eq_none.mpr hgone] at hkept
  exact absurd (AList.lookup_eq_none.mp hkept.symm) (by decide)

end Llm
