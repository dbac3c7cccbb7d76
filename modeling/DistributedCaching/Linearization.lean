import Mathlib.Data.List.Flatten
import Mathlib.Data.List.Nodup
import Mathlib.Data.List.Range
import Mathlib.Tactic.Common

/-!
# Linearization of concurrent calls

A run is a list of numbered events, and a call runs from one event to a later one.
The object that the calls work on is specified by what a call may answer and do
when it has the object for itself: `spec m t o r m'` says that at time `t` the
operation `o` may answer `r` and turn the state `m` into `m'`.  `Linearizes` says
that an order of the calls, each at an instant within its duration, explains all
their answers.

In many implementations a call takes effect at its last event or has no effect at
all.  A call without effect may be placed at any instant at which the state would
have given its answer, as late as one learns of it: `linearizable_of_timeline`
builds the order from the states of the object before each event, looking calls
first and then the one that takes effect.
-/

namespace Linearization

/-- A call that has returned: what was asked and answered, and the numbers of its first
and its last event. -/
structure Operation (O R : Type*) where
  op : O
  result : R
  start : Nat
  finish : Nat
  deriving DecidableEq, Repr

/-- A call at its place in a sequential order.  The instant `k` is the one of the event
number `k`, or just before it. -/
structure Placed (ι O R T : Type*) where
  call : ι
  operation : Operation O R
  instant : Nat
  clock : T

variable {ι O R T M : Type*} (spec : M → T → O → R → M → Prop)

/-- The calls are allowed one after the other, from one state to another. -/
inductive Replays : M → List (Placed ι O R T) → M → Prop
  | nil (m : M) : Replays m [] m
  | cons {m m' m'' : M} {x : Placed ι O R T} {xs : List (Placed ι O R T)}
      (hx : spec m x.clock x.operation.op x.operation.result m') (hxs : Replays m' xs m'') :
      Replays m (x :: xs) m''

/-- **The order explains the history**: every call that has returned stands in it once,
at an instant within its duration and with a clock that shows the time of this
instant, and one after the other they are allowed by the specification. -/
structure Linearizes (history : ι → Operation O R → Prop) (clockAt : Nat → T → Prop) (m₀ : M)
    (order : List (Placed ι O R T)) : Prop where
  returned : ∀ x ∈ order, history x.call x.operation
  complete : ∀ i o, history i o → ∃ x ∈ order, x.call = i ∧ x.operation = o
  once : (order.map Placed.call).Nodup
  within : ∀ x ∈ order, x.operation.start < x.instant ∧ x.instant ≤ x.operation.finish
  clocked : ∀ x ∈ order, clockAt x.instant x.clock
  sorted : (order.map Placed.instant).Pairwise (· ≤ ·)
  legal : ∃ m, Replays spec m₀ order m

variable {spec}

/-! ## Replaying -/

theorem Replays.append {m m' m'' : M} {xs ys : List (Placed ι O R T)}
    (hxs : Replays spec m xs m') (hys : Replays spec m' ys m'') :
    Replays spec m (xs ++ ys) m'' := by
  induction hxs with
  | nil m => exact hys
  | cons hx _ ih => exact .cons hx (ih hys)

/-- Calls that only look. -/
theorem replays_looking {m : M} {xs : List (Placed ι O R T)}
    (h : ∀ x ∈ xs, spec m x.clock x.operation.op x.operation.result m) :
    Replays spec m xs m := by
  induction xs with
  | nil => exact .nil m
  | cons x xs ih =>
      exact .cons (h x List.mem_cons_self) (ih fun y hy => h y (List.mem_cons_of_mem x hy))

/-- Blocks of calls, from each state of a timeline to the next. -/
theorem replays_blocks {timeline : Nat → M} {block : Nat → List (Placed ι O R T)} {n : Nat}
    (h : ∀ k, k < n → Replays spec (timeline k) (block k) (timeline (k + 1))) :
    Replays spec (timeline 0) ((List.range n).flatMap block) (timeline n) := by
  induction n with
  | zero => exact .nil _
  | succ n ih =>
      rw [List.range_succ, List.flatMap_append, List.flatMap_singleton]
      exact (ih fun k hk => h k (by omega)).append (h n (by omega))

/-- **What holds along the order**: an invariant of the calls in it holds of the state in
which each of them is taken. -/
theorem Replays.state {I : M → Prop} {m m' : M} {order : List (Placed ι O R T)}
    (h : Replays spec m order m')
    (hkeep : ∀ x ∈ order, ∀ m₁ m₂, I m₁ →
      spec m₁ x.clock x.operation.op x.operation.result m₂ → I m₂)
    (hm : I m) {x : Placed ι O R T} (hx : x ∈ order) :
    ∃ m₁ m₂, I m₁ ∧ spec m₁ x.clock x.operation.op x.operation.result m₂ := by
  induction h with
  | nil m => cases hx
  | cons hy hys ih =>
      rcases List.mem_cons.mp hx with rfl | hx
      · exact ⟨_, _, hm, hy⟩
      · refine ih (fun z hz => hkeep z (List.mem_cons_of_mem _ hz)) ?_ hx
        exact hkeep _ List.mem_cons_self _ _ hm hy

/-! ## Blocks of calls at the same instant -/

section Blocks

variable (n : Nat) (place : Nat → Option (Placed ι O R T)) (effective : Nat → Bool)

/-- The calls at instant `k`: those that look, then the one that takes effect.  `place j` is
the call that returns with event `j`, and `effective j` says that it takes effect. -/
def block (k : Nat) : List (Placed ι O R T) :=
  ((List.range n).filterMap fun j =>
      if effective j then none else (place j).filter fun x => x.instant == k) ++
    (if effective k then (place k).toList else [])

variable {n place effective}

/-- What a block of the order consists of: the calls that look at the state before event `k`,
and the one that takes effect with it. -/
theorem mem_block {k : Nat} {x : Placed ι O R T} :
    x ∈ block n place effective k ↔
      (∃ j, j < n ∧ effective j = false ∧ place j = some x ∧ x.instant = k) ∨
        effective k = true ∧ place k = some x := by
  simp [block, Option.filter_eq_some_iff]

/-- The blocks in turn are sorted by instant. -/
theorem sorted_blocks {block : Nat → List (Placed ι O R T)}
    (hinstant : ∀ k, ∀ x ∈ block k, x.instant = k) (n : Nat) :
    (((List.range n).flatMap block).map Placed.instant).Pairwise (· ≤ ·) := by
  induction n with
  | zero => exact List.Pairwise.nil
  | succ n ih =>
      rw [List.range_succ, List.flatMap_append, List.flatMap_singleton, List.map_append,
        List.pairwise_append]
      have hlast : ∀ a ∈ (block n).map Placed.instant, a = n := by
        intro a ha
        obtain ⟨x, hx, rfl⟩ := List.mem_map.mp ha
        exact hinstant n x hx
      refine ⟨ih, List.pairwise_of_forall_mem_list fun a ha b hb => ?_, fun a ha b hb => ?_⟩
      · rw [hlast a ha, hlast b hb]
      · obtain ⟨x, hx, rfl⟩ := List.mem_map.mp ha
        obtain ⟨k, hk, hxk⟩ := List.mem_flatMap.mp hx
        rw [hlast b hb, hinstant k x hxk]
        exact Nat.le_of_lt (List.mem_range.mp hk)

/-- If no call returns twice, none stands twice in the blocks. -/
theorem nodup_blocks (hinstant : ∀ k, ∀ x ∈ block n place effective k, x.instant = k)
    (honce : ∀ j k x y, place j = some x → place k = some y → x.call = y.call → j = k) :
    (((List.range n).flatMap (block n place effective)).map Placed.call).Nodup := by
  rw [List.map_flatMap, List.nodup_flatMap]
  constructor
  · intro k _
    rw [block, List.map_append, List.map_filterMap, List.nodup_append]
    refine ⟨List.nodup_range.filterMap ?_, ?_, ?_⟩
    · intro j j' c hc hc'
      simp only [Option.mem_def, Option.map_eq_some_iff, Option.ite_none_left_eq_some,
        Option.filter_eq_some_iff] at hc hc'
      obtain ⟨x, ⟨_, hx, _⟩, rfl⟩ := hc
      obtain ⟨y, ⟨_, hy, _⟩, hcall⟩ := hc'
      exact honce j j' x y hx hy hcall.symm
    · cases effective k <;> cases place k <;> simp
    · intro c hc c' hc' heq
      simp only [List.mem_filterMap, Option.map_eq_some_iff, Option.ite_none_left_eq_some,
        Option.filter_eq_some_iff] at hc
      obtain ⟨j, _, x, ⟨hlooks, hx, _⟩, rfl⟩ := hc
      obtain ⟨y, hy, rfl⟩ := List.mem_map.mp hc'
      split at hy
      · rename_i heffect
        rw [honce j k x y hx (Option.mem_toList.mp hy) heq] at hlooks
        exact hlooks heffect
      · cases hy
  · refine List.nodup_range.imp fun {k l} hkl => ?_
    intro c hc hc'
    obtain ⟨x, hx, rfl⟩ := List.mem_map.mp hc
    obtain ⟨y, hy, hcall⟩ := List.mem_map.mp hc'
    have hfrom : ∀ {k : Nat} {x : Placed ι O R T}, x ∈ block n place effective k →
        ∃ j, place j = some x := by
      intro k x hx
      rcases mem_block.mp hx with ⟨j, _, _, hj, _⟩ | ⟨_, hk⟩
      · exact ⟨j, hj⟩
      · exact ⟨k, hk⟩
    obtain ⟨j, hj⟩ := hfrom hx
    obtain ⟨j', hj'⟩ := hfrom hy
    rw [honce j' j y x hj' hj hcall, hj] at hj'
    cases hj'
    exact hkl ((hinstant k x hx).symm.trans (hinstant l x hy))

end Blocks

/-! ## From a timeline to an order -/

section Timeline

variable {history : ι → Operation O R → Prop} {clockAt : Nat → T → Prop} {n : Nat}
  {timeline : Nat → M}

/-- What an event may do: let a call return that takes effect at it, or change nothing and
let a call return that could have looked at an earlier instant. -/
def EventOk (spec : M → T → O → R → M → Prop) (history : ι → Operation O R → Prop)
    (clockAt : Nat → T → Prop) (timeline : Nat → M) (k : Nat) : Prop :=
  (∃ i o t, history i o ∧ o.finish = k ∧ o.start < k ∧ clockAt k t ∧
    spec (timeline k) t o.op o.result (timeline (k + 1))) ∨
  (timeline (k + 1) = timeline k ∧ ∀ i o, history i o → o.finish = k →
    ∃ j t, o.start < j ∧ j ≤ k ∧ clockAt j t ∧
      spec (timeline j) t o.op o.result (timeline j))

/-- `p` is the call that returns with event `k`, placed at this event if it takes effect
and else at an instant whose state gives its answer. -/
structure Places (spec : M → T → O → R → M → Prop) (history : ι → Operation O R → Prop)
    (clockAt : Nat → T → Prop) (timeline : Nat → M) (k : Nat)
    (p : Option (Placed ι O R T)) (effective : Bool) : Prop where
  returns : ∀ x, p = some x → history x.call x.operation ∧ x.operation.finish = k
  within : ∀ x, p = some x → x.operation.start < x.instant ∧ x.instant ≤ k
  clocked : ∀ x, p = some x → clockAt x.instant x.clock
  complete : ∀ i o, history i o → o.finish = k → ∃ x, p = some x ∧ x.call = i ∧ x.operation = o
  effect : effective = true → ∃ x, p = some x ∧ x.instant = k ∧
    spec (timeline k) x.clock x.operation.op x.operation.result (timeline (k + 1))
  idle : effective = false → timeline (k + 1) = timeline k
  looks : effective = false → ∀ x, p = some x → spec (timeline x.instant) x.clock
    x.operation.op x.operation.result (timeline x.instant)

/-- The call that returns with an event has its place. -/
theorem exists_places (hone : ∀ i j o o', history i o → history j o' →
      o.finish = o'.finish → i = j ∧ o = o') {k : Nat}
    (hevent : EventOk spec history clockAt timeline k) :
    ∃ p effective, Places spec history clockAt timeline k p effective := by
  rcases hevent with ⟨i, o, t, hi, hk, hstart, hclock, heffect⟩ | ⟨hidle, hlooks⟩
  · refine ⟨some ⟨i, o, k, t⟩, true, ?_⟩
    refine ⟨?_, ?_, ?_, ?_, fun _ => ⟨_, rfl, rfl, heffect⟩, nofun, nofun⟩
    · intro x hx
      cases hx
      exact ⟨hi, hk⟩
    · intro x hx
      cases hx
      exact ⟨hstart, Nat.le_refl k⟩
    · intro x hx
      cases hx
      exact hclock
    · intro i' o' hi' hk'
      obtain ⟨rfl, rfl⟩ := hone i i' o o' hi hi' (hk.trans hk'.symm)
      exact ⟨_, rfl, rfl, rfl⟩
  · by_cases hreturns : ∃ i o, history i o ∧ o.finish = k
    · obtain ⟨i, o, hi, hk⟩ := hreturns
      obtain ⟨j, t, hstart, hjk, hclock, hlook⟩ := hlooks i o hi hk
      refine ⟨some ⟨i, o, j, t⟩, false, ?_⟩
      refine ⟨?_, ?_, ?_, ?_, nofun, fun _ => hidle, ?_⟩
      · intro x hx
        cases hx
        exact ⟨hi, hk⟩
      · intro x hx
        cases hx
        exact ⟨hstart, hjk⟩
      · intro x hx
        cases hx
        exact hclock
      · intro i' o' hi' hk'
        obtain ⟨rfl, rfl⟩ := hone i i' o o' hi hi' (hk.trans hk'.symm)
        exact ⟨_, rfl, rfl, rfl⟩
      · intro _ x hx
        cases hx
        exact hlook
    · exact ⟨none, false, nofun, nofun, nofun,
        fun i o hi hk => absurd ⟨i, o, hi, hk⟩ hreturns, nofun, fun _ => hidle, fun _ => nofun⟩

/-- The calls of a block lead from the state before the event to the state after it. -/
theorem replays_block {place : Nat → Option (Placed ι O R T)} {effective : Nat → Bool}
    (h : ∀ k, k < n → Places spec history clockAt timeline k (place k) (effective k)) {k : Nat}
    (hk : k < n) :
    Replays spec (timeline k) (block n place effective k) (timeline (k + 1)) := by
  have hlooking : Replays spec (timeline k) ((List.range n).filterMap fun j =>
      if effective j then none else (place j).filter fun x => x.instant == k) (timeline k) := by
    refine replays_looking fun x hx => ?_
    simp only [List.mem_filterMap, Option.ite_none_left_eq_some, Option.filter_eq_some_iff,
      beq_iff_eq] at hx
    obtain ⟨j, hj, hlooks, hx, hinstant⟩ := hx
    have hlook := (h j (List.mem_range.mp hj)).looks (Bool.eq_false_iff.mpr hlooks) x hx
    rwa [hinstant] at hlook
  refine hlooking.append ?_
  cases heffect : effective k with
  | true =>
      obtain ⟨x, hx, _, hstep⟩ := (h k hk).effect heffect
      rw [hx]
      exact .cons hstep (.nil _)
  | false =>
      rw [(h k hk).idle heffect]
      exact .nil _

/-- **Calls that take effect at their last event, or only look.**  The history of a run of
`n` events is linearizable if every event is as `EventOk` says. -/
theorem linearizable_of_timeline (hfinish : ∀ i o, history i o → o.finish < n)
    (hone : ∀ i j o o', history i o → history j o' → o.finish = o'.finish → i = j ∧ o = o')
    (honce : ∀ i o o', history i o → history i o' → o = o')
    (hevent : ∀ k, k < n → EventOk spec history clockAt timeline k) :
    ∃ order, Linearizes spec history clockAt (timeline 0) order := by
  have hplaces : ∀ k, ∃ p effective, (n ≤ k → p = none ∧ effective = false) ∧
      (k < n → Places spec history clockAt timeline k p effective) := by
    intro k
    by_cases hk : k < n
    · obtain ⟨p, effective, h⟩ := exists_places hone (hevent k hk)
      exact ⟨p, effective, fun hle => absurd hk (by omega), fun _ => h⟩
    · exact ⟨none, false, fun _ => ⟨rfl, rfl⟩, fun hlt => absurd hlt hk⟩
  choose place effective hout h using hplaces
  have hlt : ∀ {j x}, place j = some x → j < n := by
    intro j x hj
    refine Nat.lt_of_not_le fun hle => ?_
    rw [(hout j hle).1] at hj
    cases hj
  have hfrom : ∀ {k x}, x ∈ block n place effective k →
      x.instant = k ∧ ∃ j, place j = some x := by
    intro k x hx
    rcases mem_block.mp hx with ⟨j, _, _, hj, hk⟩ | ⟨heffect, hk⟩
    · exact ⟨hk, j, hj⟩
    · obtain ⟨y, hy, hinstant, _⟩ := (h k (hlt hk)).effect heffect
      cases hk.symm.trans hy
      exact ⟨hinstant, k, hk⟩
  have horder : ∀ {x}, x ∈ (List.range n).flatMap (block n place effective) →
      ∃ j, place j = some x := by
    intro x hx
    obtain ⟨k, _, hxk⟩ := List.mem_flatMap.mp hx
    exact (hfrom hxk).2
  refine ⟨(List.range n).flatMap (block n place effective), ?_, ?_, ?_, ?_, ?_, ?_, ?_⟩
  · intro x hx
    obtain ⟨j, hj⟩ := horder hx
    exact ((h j (hlt hj)).returns x hj).1
  · intro i o hi
    obtain ⟨x, hx, hcall, hop⟩ := (h o.finish (hfinish i o hi)).complete i o hi rfl
    refine ⟨x, List.mem_flatMap.mpr ?_, hcall, hop⟩
    cases heffect : effective o.finish with
    | true => exact ⟨o.finish, List.mem_range.mpr (hlt hx), mem_block.mpr (Or.inr ⟨heffect, hx⟩)⟩
    | false =>
        have hle := ((h o.finish (hlt hx)).within x hx).2
        refine ⟨x.instant, List.mem_range.mpr (by have := hlt hx; omega), ?_⟩
        exact mem_block.mpr (Or.inl ⟨o.finish, hlt hx, heffect, hx, rfl⟩)
  · refine nodup_blocks (fun k x hx => (hfrom hx).1) ?_
    intro j k x y hj hk hcall
    obtain ⟨hx, hxj⟩ := (h j (hlt hj)).returns x hj
    obtain ⟨hy, hyk⟩ := (h k (hlt hk)).returns y hk
    rw [hcall] at hx
    rw [← hxj, ← hyk, honce y.call _ _ hx hy]
  · intro x hx
    obtain ⟨j, hj⟩ := horder hx
    rw [((h j (hlt hj)).returns x hj).2]
    exact (h j (hlt hj)).within x hj
  · intro x hx
    obtain ⟨j, hj⟩ := horder hx
    exact (h j (hlt hj)).clocked x hj
  · exact sorted_blocks (fun k x hx => (hfrom hx).1) n
  · exact ⟨timeline n, replays_blocks fun k hk => replays_block h hk⟩

end Timeline

end Linearization
