import DistributedCaching.CacheHistory
import DistributedCaching.GoText
import DistributedCaching.HeapPolicies
import DistributedCaching.LruPolicy
import DistributedCaching.TransitionRuns

/-!
# Which key each policy evicts

For each of the three policies with an order: what its structures say about the
history of the cache, after every sequence of calls, and from it which key goes when
a `Set` needs room.

* LRU: the list, walked from either end, is the list of the cached keys by their
  latest use, and the key that goes is the one whose latest use is the oldest
  (`lru_order`).
* LFU: the frequency in the heap is the number of uses, as far as an `int64` holds
  it, and the key that goes has the fewest uses, the oldest latest use among equals
  (`lfu_evicts_least`).
* TTL-only: the expiry in the heap is the one of the cache entry only as long as no
  `Set` changes the expiry of a key that is there, since an access does nothing;
  under that condition the key that goes expires first (`ttl_evicts_earliest`).
-/

namespace Cache

open Go Eviction InMemoryCache TransitionRuns

/-! ## Least recently used -/

/-- The list is in the order of the latest uses. -/
def Recent (l : LRU) (u : String → List Use) (n : Nat) : Prop :=
  ∃ L, Chain l L ∧ (L.map l.key).Pairwise (fun a b => latestStep u b < latestStep u a) ∧
    ∀ k ∈ L.map l.key, latestStep u k < n

theorem latestStep_update_self (u : String → List Use) (key : String) (n : Nat) (time : Time)
    (rest : List Use) : latestStep (Function.update u key (⟨n, time⟩ :: rest)) key = n := by
  simp [latestStep]

theorem latestStep_update_ne {u : String → List Use} {key k : String} (hne : k ≠ key)
    (uses : List Use) : latestStep (Function.update u key uses) k = latestStep u k := by
  rw [latestStep, latestStep, Function.update_of_ne hne]

/-- **A key that is used comes to the front**: its latest use is later than that of all
others. -/
theorem recent_front {u : String → List Use} {n : Nat} {key : String} {ks : List String}
    {time : Time} {rest : List Use} (hkey : key ∉ ks)
    (hsorted : ks.Pairwise fun a b => latestStep u b < latestStep u a)
    (hbound : ∀ k ∈ ks, latestStep u k < n) :
    let u' := Function.update u key (⟨n, time⟩ :: rest)
    (key :: ks).Pairwise (fun a b => latestStep u' b < latestStep u' a) ∧
      ∀ k ∈ key :: ks, latestStep u' k < n + 1 := by
  intro u'
  have hself : latestStep u' key = n := latestStep_update_self u key n time rest
  have hsame : ∀ k ∈ ks, latestStep u' k = latestStep u k := by
    intro k hk
    apply latestStep_update_ne
    intro heq
    exact hkey (heq ▸ hk)
  constructor
  · refine List.pairwise_cons.mpr ⟨?_, ?_⟩
    · intro k hk
      rw [hself, hsame k hk]
      exact hbound k hk
    · refine hsorted.imp_of_mem ?_
      intro a b ha hb hab
      rw [hsame a ha, hsame b hb]
      exact hab
  · intro k hk
    rcases List.mem_cons.mp hk with rfl | hk
    · omega
    · have hlt := hbound k hk
      rw [hsame k hk]
      omega

/-- An eviction keeps the order of the list. -/
theorem recent_onEvict {l : LRU} {u : String → List Use} {n : Nat} {key : String}
    (hkey : key ∈ l.nodes) (h : Recent l u n) : Recent (l.onEvict key) u n := by
  obtain ⟨L, hchain, hsorted, hbound⟩ := h
  obtain ⟨node, hnode⟩ := GoMap.mem_iff_lookup.mp hkey
  have hsame : (l.onEvict key).key = l.key := by simp [LRU.onEvict, hnode, LRU.removeNode]
  have hsub : ((L.erase node).map l.key).Sublist (L.map l.key) := List.erase_sublist.map _
  refine ⟨_, chain_onEvict hchain hnode, ?_, ?_⟩
  · rw [hsame]
    exact hsorted.sublist hsub
  · intro k hk
    rw [hsame] at hk
    exact hbound k (hsub.subset hk)

/-- An access moves its key to the front, and the list stays ordered by the latest use. -/
theorem recent_onAccess {l : LRU} {u : String → List Use} {n : Nat} {key : String}
    (hkey : key ∈ l.nodes) (time : Time) (h : Recent l u n) :
    Recent (l.onAccess key) (Function.update u key (⟨n, time⟩ :: u key)) (n + 1) := by
  obtain ⟨L, hchain, hsorted, hbound⟩ := h
  obtain ⟨node, hnode⟩ := GoMap.mem_iff_lookup.mp hkey
  have hsame : (l.onAccess key).key = l.key := by
    simp [LRU.onAccess, hnode, LRU.moveToFront, LRU.insertAtFront, LRU.removeNode]
  have hsub : ((L.erase node).map l.key).Sublist (L.map l.key) := List.erase_sublist.map _
  have hmoved := chain_onAccess hchain hnode
  have hkeys : (node :: L.erase node).map (l.onAccess key).key =
      key :: (L.erase node).map l.key := by
    rw [hsame, List.map_cons, ((hchain.index.lookup key node).mp hnode).2]
  have hnew : key ∉ (L.erase node).map l.key := by
    have hnodup := hmoved.index.keys_nodup
    rw [hkeys] at hnodup
    exact (List.nodup_cons.mp hnodup).1
  refine ⟨_, hmoved, ?_⟩
  rw [hkeys]
  exact recent_front hnew (hsorted.sublist hsub) fun k hk => hbound k (hsub.subset hk)

/-- An insertion puts its key in front, and the list stays ordered by the latest use. -/
theorem recent_onInsert {l : LRU} {u : String → List Use} {n : Nat} {key : String}
    (hkey : key ∉ l.nodes) (time : Time) (h : Recent l u n) :
    Recent (l.onInsert key) (Function.update u key [⟨n, time⟩]) (n + 1) := by
  obtain ⟨L, hchain, hsorted, hbound⟩ := h
  have hinserted := chain_onInsert hchain hkey
  have hkeys : (l.fresh :: L).map (l.onInsert key).key = key :: L.map l.key := by
    rw [List.map_cons]
    refine congrArg₂ List.cons (Function.update_self _ _ _) ?_
    apply List.map_congr_left
    intro x hx
    exact Function.update_of_ne (Nat.ne_of_lt (hchain.bound x (by simp [hx]))) _ _
  have hnew : key ∉ L.map l.key := by
    have hnodup := hinserted.index.keys_nodup
    rw [hkeys] at hnodup
    exact (List.nodup_cons.mp hnodup).1
  refine ⟨_, hinserted, ?_⟩
  rw [hkeys]
  exact recent_front hnew hsorted hbound

/-- The keys that the policy tracks are those of its map. -/
theorem lru_mem_nodes {l : LRU} {ks : List String} {key : String} (h : l.Tracks ks) :
    key ∈ l.nodes ↔ key ∈ ks := by
  rw [AList.mem_keys, h.structures.2.mem_iff]

/-- **The list of `LRU` follows the uses**, whatever is called. -/
theorem follows_recent : Follows Recent where
  later := by
    intro l u n h
    obtain ⟨L, hchain, hsorted, hbound⟩ := h
    exact ⟨L, hchain, hsorted, fun k hk => Nat.lt_succ_of_lt (hbound k hk)⟩
  onEvict htracks hkey h := recent_onEvict ((lru_mem_nodes htracks).mpr hkey) h
  onAccess time htracks hkey h := recent_onAccess ((lru_mem_nodes htracks).mpr hkey) time h
  onInsert _ time htracks hkey h :=
    recent_onInsert (fun hmem => hkey ((lru_mem_nodes htracks).mp hmem)) time h

theorem tracks_newLRU : LawfulPolicy.Tracks newLRU [] := ⟨[], chain_new, List.Perm.nil⟩

/-- After any operations the list of `LRU` is ordered by the latest use. -/
theorem recent_observe {capacity : Nat} (hcap : 1 ≤ capacity) (ops : List CacheOp) :
    let o := observe capacity newLRU ops
    Recent o.cache.policy o.uses o.steps := by
  refine policy_history follows_recent tracks_newLRU ⟨[], chain_new, ?_⟩ hcap ops
  simp

/-- **A list of the cached keys by their latest use**, the latest first. -/
structure ByLatestUse (o : Observed LRU) (ks : List String) : Prop where
  keys : ks.Perm o.cache.entries.keys
  nodup : ks.Nodup
  latest : ks.Pairwise fun a b => o.lastStep b < o.lastStep a

/-- **LRU order.**  Walked from the head, the list yields the cached keys by their
latest use, and walked from the tail the same in reverse; the map finds exactly these
keys; and the key that a `Set` evicts is the one whose latest use is the oldest. -/
theorem lru_order (capacity : Nat) (hcap : 1 ≤ capacity) (ops : List CacheOp) :
    let o := observe capacity newLRU ops
    ∃ ks, ByLatestUse o ks ∧ o.cache.policy.listKeys = ks ∧
      o.cache.policy.listKeysBack = ks.reverse ∧ o.cache.policy.nodes.keys.Perm ks ∧
      ∀ op victim, Evicts o.cache op victim →
        ∀ k ∈ o.cache.entries, k ≠ victim → o.lastStep victim < o.lastStep k := by
  intro o
  obtain ⟨hsound, hcapacity⟩ := sound_observe tracks_newLRU hcap ops
  obtain ⟨L, hchain, hsorted, _⟩ := recent_observe hcap ops
  have hkeys : (L.map o.cache.policy.key).Perm o.cache.entries.keys := by
    have htracks : o.cache.policy.Tracks o.cache.entries.keys := hsound.inStep
    rw [← listKeys_eq hchain]
    exact htracks.structures.1
  refine ⟨L.map o.cache.policy.key, ⟨hkeys, hchain.index.keys_nodup, hsorted⟩,
    listKeys_eq hchain, listKeysBack_eq hchain, hchain.index.keys_perm, ?_⟩
  intro op victim hevicts k hk hne
  obtain ⟨_, hevict⟩ := evicts_victim hsound (by omega) hevicts
  -- The victim is the last key of the list, so every other key is before it.
  have hlast : (L.map o.cache.policy.key).getLast? = some victim := by
    rw [List.getLast?_map, ← evict_eq hchain]
    exact hevict
  obtain ⟨front, hfront⟩ := List.getLast?_eq_some_iff.mp hlast
  have hmem : k ∈ L.map o.cache.policy.key := hkeys.mem_iff.mpr (AList.mem_keys.mp hk)
  rw [hfront] at hsorted hmem
  have hbefore : k ∈ front := by
    rcases List.mem_append.mp hmem with hmem | hmem
    · exact hmem
    · exact absurd (List.mem_singleton.mp hmem) hne
  exact (List.pairwise_append.mp hsorted).2.2 k hbefore victim (by simp)

/-- A `Get` saves the older of two keys. -/
def getSavesOlder : List CacheOp :=
  [.set "a" [1] second 0 0 0, .set "b" [2] second 1 1 0, .get "a" ⟨2, 2, 2, 2⟩]

/-- A `Get` of the older key saves it: the other one is evicted. -/
theorem lru_order_getSavesOlder :
    let o := observe 2 newLRU getSavesOlder
    Evicts o.cache (.set "c" [3] second 3 3 0) "b" ∧ o.lastStep "b" < o.lastStep "a" := by
  intro o
  have hevicts : Evicts o.cache (.set "c" [3] second 3 3 0) "b" := by decide
  obtain ⟨_, _, _, _, _, holdest⟩ := lru_order 2 (by decide) getSavesOlder
  exact ⟨hevicts, holdest _ "b" hevicts "a" (by decide) (by decide)⟩

/-! ## Least frequently used -/

/-- **The heap counts the uses**, as an `int64`, and has the time of the latest one. -/
structure Counts (l : LFU) (u : String → List Use) : Prop where
  consistent : Tracker.Consistent LfuEntry.key l
  inOrder : Tracker.InOrder lfuRank l
  counted : ∀ k e, l.entryOf k = some e →
    e.freq = int64 (u k).length ∧ (u k).head?.map Use.time = some e.accessedAt

/-- An eviction keeps the counts of the others. -/
theorem counts_onEvict {l : LFU} {u : String → List Use} {key : String}
    (hkey : key ∈ l.entries) (h : Counts l u) : Counts (l.onEvict key) u where
  consistent := (Tracker.consistent_untrack lfuLess h.consistent hkey).1
  inOrder := Tracker.inOrder_untrack lfuLess lfuLess_eq h.consistent h.inOrder key
  counted := by
    intro k e he
    rw [LFU.onEvict, Tracker.entryOf_untrack] at he
    split at he
    · cases he
    · exact h.counted k e he

/-- An access counts one use more. -/
theorem counts_onAccess {l : LFU} {u : String → List Use} (key : String) (n : Nat) (time : Time)
    (h : Counts l u) :
    Counts (l.onAccess key time) (Function.update u key (⟨n, time⟩ :: u key)) where
  consistent := by
    refine (Tracker.consistent_modify lfuLess h.consistent ?_).1
    intro e
    rfl
  inOrder := Tracker.inOrder_modify lfuLess lfuLess_eq h.consistent h.inOrder key _
  counted := by
    intro k e he
    rw [LFU.onAccess, Tracker.entryOf_modify lfuLess h.consistent] at he
    by_cases hk : k = key
    · subst hk
      rw [if_pos rfl] at he
      obtain ⟨e', he', rfl⟩ := Option.map_eq_some_iff.mp he
      rw [Function.update_self, (h.counted k e' he').1, incInt64_int64]
      simp
    · rw [if_neg hk] at he
      rw [Function.update_of_ne hk]
      exact h.counted k e he

/-- An insertion starts at one use. -/
theorem counts_onInsert {l : LFU} {u : String → List Use} {key : String} (hkey : key ∉ l.entries)
    (n : Nat) (time : Time) (h : Counts l u) :
    Counts (l.onInsert key time) (Function.update u key [⟨n, time⟩]) where
  consistent := (Tracker.consistent_track lfuLess h.consistent hkey).1
  inOrder := Tracker.inOrder_track lfuLess lfuLess_eq h.consistent h.inOrder _
  counted := by
    intro k e he
    rw [LFU.onInsert, Tracker.entryOf_track lfuLess h.consistent] at he
    by_cases hk : k = key
    · rw [if_pos hk] at he
      cases he
      rw [hk, Function.update_self]
      exact ⟨(int64_of_lt (show 1 < 2 ^ 63 by omega)).symm, rfl⟩
    · rw [if_neg hk] at he
      rw [Function.update_of_ne hk]
      exact h.counted k e he

/-- **The entries of `LFU` count the uses**, whatever is called. -/
theorem follows_counts : Follows fun (l : LFU) u _ => Counts l u where
  later h := h
  onEvict htracks hkey h := counts_onEvict (Tracker.Tracks.mem_entries htracks |>.mpr hkey) h
  onAccess time _ _ h := counts_onAccess _ _ time h
  onInsert _ time htracks hkey h :=
    counts_onInsert (fun hmem => hkey (Tracker.Tracks.mem_entries htracks |>.mp hmem)) _ time h

theorem tracks_newLFU : LawfulPolicy.Tracks newLFU [] :=
  ⟨Tracker.consistent_new _ _, List.Perm.nil⟩

/-- After any operations the entries of `LFU` count the uses. -/
theorem counts_observe {capacity : Nat} (hcap : 1 ≤ capacity) (ops : List CacheOp) :
    Counts (observe capacity newLFU ops).cache.policy (observe capacity newLFU ops).uses := by
  refine policy_history follows_counts tracks_newLFU ⟨Tracker.consistent_new _ _, ?_, ?_⟩ hcap ops
  · exact Tracker.inOrder_new _
  · intro k e he
    simp [newLFU, Tracker.new, Tracker.entryOf] at he

/-- The entry that LFU keeps for a cached key. -/
theorem exists_lfuEntry {o : Observed LFU} (h : Sound o.cache)
    (hcounts : Counts o.cache.policy o.uses) {k : String} (hk : k ∈ o.cache.entries) :
    ∃ e, o.cache.policy.entryOf k = some e ∧ e.freq = int64 (o.count k) ∧
      e.accessedAt = o.last k := by
  have htracks : Tracker.Tracks LfuEntry.key o.cache.policy o.cache.entries.keys := h.inStep
  obtain ⟨e, he⟩ := htracks.exists_entryOf (AList.mem_keys.mp hk)
  obtain ⟨hfreq, htime⟩ := hcounts.counted k e he
  refine ⟨e, he, hfreq, ?_⟩
  rw [Observed.last, htime, Option.getD_some]

/-- The victim of a `Set` ranks lowest in the heap. -/
theorem lfu_victim_least {capacity : Nat} (hcap : 1 ≤ capacity) {ops : List CacheOp}
    {op : CacheOp} {victim : String} (hevicts : Evicts (observe capacity newLFU ops).cache op victim)
    {k : String} (hk : k ∈ (observe capacity newLFU ops).cache.entries) :
    let o := observe capacity newLFU ops
    toLex (int64 (o.count victim), o.last victim) ≤ toLex (int64 (o.count k), o.last k) := by
  intro o
  obtain ⟨hsound, hcapacity⟩ := sound_observe tracks_newLFU hcap ops
  have hcounts := counts_observe hcap ops
  obtain ⟨_, hevict⟩ := evicts_victim hsound (by omega) hevicts
  obtain ⟨e, he, hleast⟩ := Tracker.top_least hcounts.consistent hcounts.inOrder hevict
  obtain ⟨e₁, he₁, hfreq₁, htime₁⟩ := exists_lfuEntry hsound hcounts hevicts.2.1
  obtain ⟨e₂, he₂, hfreq₂, htime₂⟩ := exists_lfuEntry hsound hcounts hk
  cases he.symm.trans he₁
  have hle := hleast k e₂ he₂
  rw [lfuRank, lfuRank, hfreq₁, htime₁, hfreq₂, htime₂] at hle
  exact hle

/-- **LFU order.**  As long as the uses of every cached key can be counted in an
`int64`, the key that a `Set` evicts has the fewest uses of all cached keys, and the
oldest latest use among those. -/
theorem lfu_evicts_least (capacity : Nat) (hcap : 1 ≤ capacity) (ops : List CacheOp)
    (op : CacheOp) (victim : String) :
    let o := observe capacity newLFU ops
    (∀ k ∈ o.cache.entries, o.count k < 2 ^ 63) → Evicts o.cache op victim →
      ∀ k ∈ o.cache.entries, o.count victim < o.count k ∨
        o.count victim = o.count k ∧ o.last victim ≤ o.last k := by
  intro o hbound hevicts k hk
  have hle := lfu_victim_least hcap hevicts hk
  dsimp only at hle
  rw [int64_of_lt (hbound victim hevicts.2.1), int64_of_lt (hbound k hk),
    Prod.Lex.toLex_le_toLex] at hle
  rcases hle with hlt | ⟨heq, hle⟩
  · exact Or.inl (Int.ofNat_lt.mp hlt)
  · exact Or.inr ⟨Int.ofNat_inj.mp heq, hle⟩

/-- A `Get` of the older key saves it under `LFU` too. -/
theorem lfu_evicts_least_getSavesOlder :
    let o := observe 2 newLFU getSavesOlder
    Evicts o.cache (.set "c" [3] second 3 3 0) "b" ∧ o.count "b" < o.count "a" := by
  intro o
  have hevicts : Evicts o.cache (.set "c" [3] second 3 3 0) "b" := by decide
  have hkeys : o.cache.entries.keys = ["b", "a"] := by decide
  have hbound : ∀ k ∈ o.cache.entries, o.count k < 2 ^ 63 := by
    intro k hk
    rw [AList.mem_keys, hkeys] at hk
    revert k
    decide
  refine ⟨hevicts, ?_⟩
  rcases lfu_evicts_least 2 (by decide) getSavesOlder _ "b" hbound hevicts "a" (by decide) with
    hlt | ⟨heq, _⟩
  · exact hlt
  · exact absurd heq (by decide)

/-- One key is inserted and then hit `n` times. -/
def hits (n : Nat) : List CacheOp :=
  .set "a" [1] second 0 0 0 :: List.replicate n (.get "a" ⟨0, 0, 0, 0⟩)

/-- Every `Get` is a hit, and is counted. -/
theorem observe_hits (n : Nat) :
    let o := observe 2 newLFU (hits n)
    o.cache.entries.lookup "a" = some 0 ∧ (o.cache.memory 0).expiresAt = second ∧
      o.cache.entries.keys = ["a"] ∧ o.count "a" = n + 1 := by
  induction n with
  | zero => decide
  | succ n ih =>
      obtain ⟨hlookup, hexpiry, hkeys, hcount⟩ := ih
      have hmore : hits (n + 1) = hits n ++ [.get "a" ⟨0, 0, 0, 0⟩] := by
        simp [hits, List.replicate_succ']
      rw [hmore, observe_concat]
      have hfresh : ((observe 2 newLFU (hits n)).cache.memory 0).isExpired 0 = false := by
        rw [CacheEntry.isExpired, hexpiry]
        decide
      have hget : (observe 2 newLFU (hits n)).cache.get "a" ⟨0, 0, 0, 0⟩ =
          (some ((observe 2 newLFU (hits n)).cache.memory 0).value,
            (observe 2 newLFU (hits n)).cache.touch "a" 0 0 0) := by
        simp [InMemoryCache.get, hlookup, hfresh, touch]
      refine ⟨?_, ?_, ?_, ?_⟩
      · simpa [Observed.call, InMemoryCache.perform, hget, touch] using hlookup
      · simpa [Observed.call, InMemoryCache.perform, hget, touch] using hexpiry
      · simpa [Observed.call, InMemoryCache.perform, hget, touch] using hkeys
      · simpa [Observed.call, Observed.record, hget, Observed.used, Observed.count] using hcount

/-- Then another key is inserted. -/
def hitsThenInsert (n : Nat) : List CacheOp := hits n ++ [.set "b" [2] second 0 0 0]

/-- The key that was hit counts `n + 1` uses, and the other one a single use. -/
theorem observe_hitsThenInsert (n : Nat) :
    let o := observe 2 newLFU (hitsThenInsert n)
    o.cache.entries.keys = ["b", "a"] ∧ o.count "a" = n + 1 ∧ o.count "b" = 1 := by
  obtain ⟨_, _, hkeys, hcount⟩ := observe_hits n
  rw [hitsThenInsert, observe_concat]
  have hvalid : validateTTL second = .ok () := by decide
  have hnew : "b" ∉ (observe 2 newLFU (hits n)).cache.entries := by
    rw [AList.mem_keys, hkeys]
    decide
  have hcapacity := (sound_observe tracks_newLFU (show 1 ≤ 2 by omega) (hits n)).2
  have hroom : ¬ (observe 2 newLFU (hits n)).cache.len ≥
      (observe 2 newLFU (hits n)).cache.capacity := by
    rw [hcapacity, InMemoryCache.len, GoMap.len, hkeys]
    decide
  have hstore : ((observe 2 newLFU (hits n)).cache.perform (.set "b" [2] second 0 0 0)) =
      (observe 2 newLFU (hits n)).cache.add "b" [2] second 0 0 := by
    have hexpiry : expiryOf 0 second = second := by decide
    simp [InMemoryCache.perform, InMemoryCache.set, hvalid, store, makeRoom, hroom,
      AList.lookup_eq_none.mpr hnew, hexpiry]
  refine ⟨?_, ?_, ?_⟩
  · rw [Observed.call, hstore, ← hkeys]
    exact GoMap.keys_insert_new _ hnew
  · simpa [Observed.call, Observed.record, hvalid, hnew, Observed.inserted, Observed.count]
      using hcount
  · simp [Observed.call, Observed.record, hvalid, hnew, Observed.inserted, Observed.count]

/-- When its counter has just wrapped, the key that was hit is evicted. -/
theorem evicts_of_wrapped {n : Nat} (hn : n + 1 = 2 ^ 63) :
    let o := observe 2 newLFU (hitsThenInsert n)
    Evicts o.cache (.set "c" [3] second 0 0 0) "a" ∧ "b" ∈ o.cache.entries ∧
      o.count "b" < o.count "a" := by
  obtain ⟨hkeys, ha, hb⟩ := observe_hitsThenInsert n
  obtain ⟨hsound, hcapacity⟩ := sound_observe tracks_newLFU (show 1 ≤ 2 by omega)
    (hitsThenInsert n)
  have hmem : ∀ k, k ∈ (observe 2 newLFU (hitsThenInsert n)).cache.entries ↔
      k = "b" ∨ k = "a" := by
    intro k
    rw [AList.mem_keys, hkeys]
    simp
  have hnew : "c" ∉ (observe 2 newLFU (hitsThenInsert n)).cache.entries := by
    rw [hmem]
    decide
  have hfull : (observe 2 newLFU (hitsThenInsert n)).cache.len =
      (observe 2 newLFU (hitsThenInsert n)).cache.capacity := by
    rw [hcapacity, InMemoryCache.len, GoMap.len, hkeys]
    rfl
  obtain ⟨victim, hevicts⟩ := evicts_of_full hsound (by omega) [3]
    (show validateTTL second = .ok () by decide) 0 0 0 hnew hfull
  refine ⟨?_, (hmem "b").mpr (Or.inl rfl), ?_⟩
  · rcases (hmem victim).mp hevicts.2.1 with rfl | rfl
    · -- `"b"` has a higher frequency than `"a"`, whose count of `2 ^ 63` is negative.
      have hle := lfu_victim_least (show 1 ≤ 2 by omega) hevicts ((hmem "a").mpr (Or.inr rfl))
      dsimp only at hle
      rw [ha, hb, hn, Prod.Lex.toLex_le_toLex] at hle
      have hwrap : int64 ((2 ^ 63 : Nat) : Int) = -2 ^ 63 := by decide
      have hone : int64 ((1 : Nat) : Int) = 1 := by decide
      rw [hwrap, hone] at hle
      omega
    · exact hevicts
  · rw [ha, hb]
    omega

/-- **A counter that wraps.**  The key with `2 ^ 63` uses is evicted, not the one with
a single use. -/
theorem lfu_evicts_wrapped :
    let o := observe 2 newLFU (hitsThenInsert (2 ^ 63 - 1))
    Evicts o.cache (.set "c" [3] second 0 0 0) "a" ∧ "b" ∈ o.cache.entries ∧
      o.count "b" < o.count "a" :=
  evicts_of_wrapped (by omega)

/-! ## Earliest expiry -/

/-- The expiry of a cached key. -/
def expiry {P : Type} (c : InMemoryCache P) (key : String) : Option Time :=
  (c.stored key).map Prod.snd

/-- **The heap has the expiries of the cache.** -/
structure Agrees (c : InMemoryCache TTLOnly) : Prop where
  consistent : Tracker.Consistent TtlEntry.key c.policy
  inOrder : Tracker.InOrder TtlEntry.expiresAt c.policy
  agrees : ∀ k e, c.policy.entryOf k = some e → expiry c k = some e.expiresAt

/-- An eviction keeps the heap in agreement with the cells. -/
theorem agrees_drop {c : InMemoryCache TTLOnly} (h : Agrees c) {key : String}
    (hkey : key ∈ c.policy.entries) : Agrees (c.drop key) where
  consistent := (Tracker.consistent_untrack ttlLess h.consistent hkey).1
  inOrder := Tracker.inOrder_untrack ttlLess (fun _ _ => rfl) h.consistent h.inOrder key
  agrees := by
    intro k e he
    have he' := (Tracker.entryOf_untrack ttlLess key k).symm.trans he
    split at he'
    · cases he'
    · rename_i hk
      rw [expiry, stored, entry_drop_ne c hk]
      exact h.agrees k e he'

/-- A new key enters the heap with the expiry of its cell. -/
theorem agrees_add {c : InMemoryCache TTLOnly} (haddressed : Addressed c) (h : Agrees c)
    {key : String} (hkey : key ∉ c.policy.entries) (value : Bytes)
    (expiresAt now policyNow : Time) : Agrees (c.add key value expiresAt now policyNow) where
  consistent := (Tracker.consistent_track ttlLess h.consistent hkey).1
  inOrder := Tracker.inOrder_track ttlLess (fun _ _ => rfl) h.consistent h.inOrder _
  agrees := by
    intro k e he
    have he' := (Tracker.entryOf_track ttlLess h.consistent _ k).symm.trans he
    by_cases hk : k = key
    · rw [if_pos hk] at he'
      cases he'
      rw [hk, expiry, entry_add_self]
      rfl
    · rw [if_neg hk] at he'
      rw [expiry, stored, entry_add_ne haddressed _ _ _ _ hk]
      exact h.agrees k e he'

/-- Updating an entry, which tells the policy nothing. -/
theorem agrees_update {c : InMemoryCache TTLOnly} (haddressed : Addressed c) (h : Agrees c)
    {key : String} {r : Nat} {e : CacheEntry} (hr : c.entries.lookup key = some r)
    (hexpiry : e.expiresAt = (c.memory r).expiresAt) :
    Agrees { c with memory := Function.update c.memory r e } where
  consistent := h.consistent
  inOrder := h.inOrder
  agrees := by
    intro k entry hentry
    rw [← h.agrees k entry hentry]
    by_cases hk : k = key
    · subst hk
      simp [expiry, stored, InMemoryCache.entry, hr, hexpiry]
    · have hsame := entry_update_ne haddressed hr e hk
      exact congrArg (fun x : Option CacheEntry =>
        (x.map fun e => (e.value, e.expiresAt)).map Prod.snd) hsame

/-- **A `Set` of a key that is there keeps its expiry.** -/
def KeepsExpiry (o : Observed TTLOnly) : CacheOp → Prop
  | .set key _ ttl now _ _ =>
      ∀ e ∈ o.cache.entry key, validateTTL ttl = .ok () → e.expiresAt = expiryOf now ttl
  | _ => True

instance KeepsExpiry.decidable : ∀ o op, Decidable (KeepsExpiry o op)
  | o, .set key _ ttl now _ _ => inferInstanceAs (Decidable
      (∀ e ∈ o.cache.entry key, validateTTL ttl = .ok () → e.expiresAt = expiryOf now ttl))
  | _, .get _ _ => .isTrue trivial
  | _, .delete _ => .isTrue trivial

/-- **Every change keeps the heap in agreement with the cells**, if no expiry is changed in
place. -/
theorem agrees_change {o : Observed TTLOnly} (h : Sound o.cache) (hagrees : Agrees o.cache)
    {op : CacheOp} (hkeeps : KeepsExpiry o op) {c : InMemoryCache TTLOnly}
    {u : String → List Use} (hchange : Change o op c u) : Agrees c := by
  have hmem : ∀ k, k ∈ o.cache.policy.entries ↔ k ∈ o.cache.entries := by
    intro k
    rw [AList.mem_keys]
    exact Tracker.Tracks.mem_entries h.inStep
  cases hchange with
  | quiet => exact hagrees
  | dropped hkey _ => exact agrees_drop hagrees ((hmem _).mpr hkey)
  | @used key r e time hr he hexpiry =>
      refine agrees_update h.addressed hagrees hr ?_
      rcases hexpiry with hsame | ⟨value, ttl, now, draw, rfl, hvalid, hnew⟩
      · exact hsame
      · have hold := hkeeps (o.cache.memory r) (by simp [InMemoryCache.entry, hr]) hvalid
        exact hnew.trans hold.symm
  | added hkey hroom =>
      exact agrees_add h.addressed hagrees (fun hthere => hkey ((hmem _).mp hthere)) _ _ _ _
  | @replaced key victim value expiresAt now time draw hkey hvictim hevict hset =>
      have hdrop := sound_drop h hvictim
      refine agrees_add hdrop.addressed (agrees_drop hagrees ((hmem _).mpr hvictim)) ?_ _ _ _ _
      intro hthere
      refine notMem_drop hkey victim ?_
      rw [AList.mem_keys]
      exact (Tracker.Tracks.mem_entries hdrop.inStep).mp hthere

theorem tracks_newTTLOnly : LawfulPolicy.Tracks newTTLOnly [] :=
  ⟨Tracker.consistent_new _ _, List.Perm.nil⟩

/-- After calls that keep the expiries, the heap has the expiries of the cache. -/
theorem agrees_observe {capacity : Nat} (hcap : 1 ≤ capacity) {ops : List CacheOp}
    (hkeeps : Along callStep KeepsExpiry (.init capacity newTTLOnly) ops) :
    Agrees (observe capacity newTTLOnly ops).cache := by
  induction ops using List.reverseRecOn with
  | nil =>
      refine ⟨Tracker.consistent_new _ _, Tracker.inOrder_new _, ?_⟩
      intro k e he
      simp [observe, Observed.init, InMemoryCache.new, newTTLOnly, Tracker.new,
        Tracker.entryOf] at he
  | append_singleton ops op ih =>
      obtain ⟨hbefore, hlast⟩ := along_append.mp hkeeps
      have hop := (hlast _ (run_total (fun _ _ => rfl) _ ops)).1
      obtain ⟨hsound, hcapacity⟩ := sound_observe tracks_newTTLOnly hcap ops
      rw [observe_concat]
      exact agrees_change hsound (ih hbefore) hop (change_call hsound (by omega) op)

/-- **TTL-only order.**  If no `Set` changes the expiry of a key that is there, no
cached key expires before the key that a `Set` evicts. -/
theorem ttl_evicts_earliest (capacity : Nat) (hcap : 1 ≤ capacity) (ops : List CacheOp)
    (hkeeps : Along callStep KeepsExpiry (.init capacity newTTLOnly) ops) (op : CacheOp)
    (victim : String) :
    let o := observe capacity newTTLOnly ops
    Evicts o.cache op victim → ∀ k e v, o.cache.entry k = some e →
      o.cache.entry victim = some v → ¬ e.expiresAt < v.expiresAt := by
  intro o hevicts k e v he hv
  obtain ⟨hsound, hcapacity⟩ := sound_observe tracks_newTTLOnly hcap ops
  have hagrees := agrees_observe hcap hkeeps
  obtain ⟨_, hevict⟩ := evicts_victim hsound (by omega) hevicts
  obtain ⟨x, hx, hleast⟩ := Tracker.top_least hagrees.consistent hagrees.inOrder hevict
  -- The heap has an entry for `k`, with the expiry of the cache.
  have htracks : Tracker.Tracks TtlEntry.key o.cache.policy o.cache.entries.keys := hsound.inStep
  obtain ⟨r, hr, _⟩ := Option.map_eq_some_iff.mp he
  obtain ⟨y, hy⟩ := htracks.exists_entryOf (AList.mem_keys.mp (GoMap.mem_iff_lookup.mpr ⟨r, hr⟩))
  have hle := hleast k y hy
  have hxv := hagrees.agrees victim x hx
  have hyk := hagrees.agrees k y hy
  rw [expiry, stored, hv] at hxv
  rw [expiry, stored, he] at hyk
  rw [← Option.some.inj hxv, ← Option.some.inj hyk] at hle
  exact not_lt.mpr hle

/-- `"a"` is refreshed one second later, to the same expiry. -/
def refreshedAlike : List CacheOp :=
  [.set "a" [1] (10 * second) 0 0 0, .set "b" [2] (20 * second) 0 0 0,
    .set "a" [3] (9 * second) second second 0]

/-- A key is refreshed with the expiry that it has, and the earliest one is still evicted. -/
theorem ttl_evicts_earliest_refreshedAlike :
    let o := observe 2 newTTLOnly refreshedAlike
    Evicts o.cache (.set "c" [4] second second second 0) "a" ∧
      ∀ e v, o.cache.entry "b" = some e → o.cache.entry "a" = some v →
        ¬ e.expiresAt < v.expiresAt := by
  intro o
  have hevicts : Evicts o.cache (.set "c" [4] second second second 0) "a" := by decide
  exact ⟨hevicts, ttl_evicts_earliest 2 (by decide) refreshedAlike (by decide) _ "a" hevicts "b"⟩

/-- `"a"` is refreshed to expire after `"b"`. -/
def refreshedLonger : List CacheOp :=
  [.set "a" [1] (10 * second) 0 0 0, .set "b" [2] (20 * second) 0 0 0,
    .set "a" [3] (100 * second) second second 0]

/-- The heap still has the old expiry of `"a"`, which goes although `"b"` expires
first. -/
theorem ttl_evicts_refreshed :
    let o := observe 2 newTTLOnly refreshedLonger
    Evicts o.cache (.set "c" [4] second second second 0) "a" ∧
      ∃ e v, o.cache.entry "b" = some e ∧ o.cache.entry "a" = some v ∧
        e.expiresAt < v.expiresAt := by
  intro o
  have hevicts : Evicts o.cache (.set "c" [4] second second second 0) "a" := by decide
  exact ⟨hevicts, _, _, rfl, rfl, by decide⟩

end Cache
