import Mathlib.Tactic.Common

/-!
# Finite runs of a partial step function

A machine is given by `step : σ → ε → Option σ`: from a state, an event either
is enabled and leads to one next state, or is not enabled.  All
nondeterminism of a system (which thread moves, which message arrives, what
the clock shows) is carried by the event.  A run is a list of events.

The rules at the end are the inductions over runs: `run_invariant` for
properties that every enabled event keeps, `run_invariant_along` for properties
that are kept only by events meeting a side condition on the state they are
taken from, and `throughout_iff_along` when that side condition is exactly what
is needed.
-/

namespace TransitionRuns

variable {σ ε : Type*} (step : σ → ε → Option σ)

/-- Take the events in order; `none` as soon as one of them is not enabled. -/
def run : σ → List ε → Option σ
  | s, [] => some s
  | s, e :: es => (step s e).bind fun s' => run s' es

/-- Every event taken along the run from `s` meets the condition `P` in the
state it is taken from. -/
def Along (P : σ → ε → Prop) : σ → List ε → Prop
  | _, [] => True
  | s, e :: es => P s e ∧ ∀ s', step s e = some s' → Along P s' es

/-- Every state of the run from `s`, the last one included, meets `Q`. -/
def Throughout (Q : σ → Prop) : σ → List ε → Prop
  | s, [] => Q s
  | s, e :: es => Q s ∧ ∀ s', step s e = some s' → Throughout Q s' es

instance Along.decidable (P : σ → ε → Prop) [∀ s e, Decidable (P s e)] :
    ∀ s es, Decidable (Along step P s es)
  | _, [] => .isTrue trivial
  | s, e :: es =>
      have : DecidablePred fun s' => Along step P s' es :=
        fun s' => Along.decidable P s' es
      inferInstanceAs (Decidable (P s e ∧ ∀ s' ∈ step s e, Along step P s' es))

variable {step}

@[simp] theorem run_nil (s : σ) : run step s [] = some s := rfl

@[simp] theorem run_cons (s : σ) (e : ε) (es : List ε) :
    run step s (e :: es) = (step s e).bind fun s' => run step s' es := rfl

/-- A run over a concatenation passes through the state reached by its first
part. -/
theorem run_append (s : σ) (es fs : List ε) :
    run step s (es ++ fs) = (run step s es).bind fun s' => run step s' fs := by
  induction es generalizing s with
  | nil => rfl
  | cons e es ih =>
      cases h : step s e with
      | none => simp [h]
      | some s' => simp [h, ih]

/-- Extending a successful run by one enabled event. -/
theorem run_snoc {s t u : σ} {es : List ε} {e : ε}
    (h : run step s es = some t) (he : step t e = some u) :
    run step s (es ++ [e]) = some u := by
  rw [run_append, h]
  simp [he]

/-- The state before the event number `k` of a run. -/
def stateAt (step : σ → ε → Option σ) (s : σ) (es : List ε) (k : Nat) : σ :=
  (run step s (es.take k)).getD s

theorem stateAt_zero (s : σ) (es : List ε) : stateAt step s es 0 = s := rfl

/-- A run passes through its states. -/
theorem run_take {s t : σ} {es : List ε} (h : run step s es = some t) (k : Nat) :
    run step s (es.take k) = some (stateAt step s es k) := by
  rw [← List.take_append_drop k es, run_append] at h
  obtain ⟨m, hm, _⟩ := Option.bind_eq_some_iff.mp h
  rw [stateAt, hm]
  rfl

/-- The state after an event of a run is one step from the state before. -/
theorem step_stateAt {s t : σ} {es : List ε} {k : Nat} {e : ε} (h : run step s es = some t)
    (he : es[k]? = some e) :
    step (stateAt step s es k) e = some (stateAt step s es (k + 1)) := by
  have hnext := run_take h (k + 1)
  rw [List.take_add_one, he, run_append, run_take h k] at hnext
  simpa using hnext

/-- What can be continued one step at a time can be chosen for all steps. -/
theorem exists_sequence {μ : Type*} {I : Nat → μ → Prop} {J : Nat → μ → μ → Prop} {n : Nat}
    {m : μ} (hm : I 0 m) (hnext : ∀ k, k < n → ∀ m, I k m → ∃ m', J k m m' ∧ I (k + 1) m') :
    ∃ A : Nat → μ, A 0 = m ∧ (∀ k, k ≤ n → I k (A k)) ∧ ∀ k, k < n → J k (A k) (A (k + 1)) := by
  induction n with
  | zero =>
      refine ⟨fun _ => m, rfl, fun k hk => ?_, fun k hk => absurd hk (Nat.not_lt_zero k)⟩
      rw [Nat.le_zero.mp hk]
      exact hm
  | succ n ih =>
      obtain ⟨A, hzero, hI, hJ⟩ := ih fun k hk => hnext k (by omega)
      obtain ⟨m', hstep, hm'⟩ := hnext n (by omega) (A n) (hI n (Nat.le_refl n))
      have hold : ∀ k, k ≤ n → Function.update A (n + 1) m' k = A k := fun k hk =>
        Function.update_of_ne (by omega) _ _
      refine ⟨Function.update A (n + 1) m', (hold 0 (Nat.zero_le n)).trans hzero, ?_, ?_⟩
      · intro k hk
        by_cases hkn : k = n + 1
        · rw [hkn, Function.update_self]
          exact hm'
        · rw [hold k (by omega)]
          exact hI k (by omega)
      · intro k hk
        rw [hold k (by omega)]
        by_cases hkn : k = n
        · rw [hkn, Function.update_self]
          exact hstep
        · rw [hold (k + 1) (by omega)]
          exact hJ k (by omega)

/-- A machine that takes every event runs to its end. -/
theorem run_total {f : σ → ε → σ} (hstep : ∀ s e, step s e = some (f s e)) (s : σ)
    (es : List ε) : run step s es = some (es.foldl f s) := by
  induction es generalizing s with
  | nil => rfl
  | cons e es ih => rw [run_cons, hstep, Option.bind_some, List.foldl_cons, ih]

/-- A run on fixed events, with what holds in the state it ends in: both conditions can be
evaluated. -/
theorem exists_run {Q : σ → Prop} {s : σ} {es : List ε} (hsome : (run step s es).isSome = true)
    (hend : ∀ t ∈ run step s es, Q t) : ∃ t, run step s es = some t ∧ Q t := by
  obtain ⟨t, ht⟩ := Option.isSome_iff_exists.mp hsome
  exact ⟨t, ht, hend t ht⟩

/-- Invert one step at the front of a successful run. -/
theorem run_cons_some {s t : σ} {e : ε} {es : List ε}
    (h : run step s (e :: es) = some t) :
    ∃ m, step s e = some m ∧ run step m es = some t :=
  Option.bind_eq_some_iff.mp h

/-- Conditions along a concatenation split at the state between the parts. -/
theorem along_append {P : σ → ε → Prop} {s : σ} {es fs : List ε} :
    Along step P s (es ++ fs) ↔
      Along step P s es ∧ ∀ t, run step s es = some t → Along step P t fs := by
  induction es generalizing s with
  | nil => simp [Along]
  | cons e es ih =>
      constructor
      · intro hboth
        obtain ⟨hP, hrest⟩ := hboth
        refine ⟨⟨hP, fun s' hs' => (ih.mp (hrest s' hs')).1⟩, ?_⟩
        intro t ht
        obtain ⟨m, hm, hmt⟩ := run_cons_some ht
        exact (ih.mp (hrest m hm)).2 t hmt
      · intro hboth
        obtain ⟨⟨hP, hrest⟩, hfs⟩ := hboth
        refine ⟨hP, fun s' hs' => ih.mpr ⟨hrest s' hs', ?_⟩⟩
        intro t ht
        exact hfs t (by simp [hs', ht])

/-- The beginning of a run meets what the run meets. -/
theorem Along.take {P : σ → ε → Prop} {s : σ} {es : List ε} (h : Along step P s es) (n : Nat) :
    Along step P s (es.take n) := by
  rw [← List.take_append_drop n es] at h
  exact (along_append.mp h).1

/-- Each event of the run meets the condition in the state before it. -/
theorem Along.at {P : σ → ε → Prop} {s t : σ} {es : List ε} {k : Nat} {e : ε}
    (halong : Along step P s es) (h : run step s es = some t) (he : es[k]? = some e) :
    P (stateAt step s es k) e := by
  obtain ⟨hk, rfl⟩ := List.getElem?_eq_some_iff.mp he
  have hsplit : es = es.take k ++ es[k] :: es.drop (k + 1) := by
    rw [← List.drop_eq_getElem_cons hk, List.take_append_drop]
  rw [hsplit] at halong
  exact ((along_append.mp halong).2 _ (run_take h k)).1

/-- A run with an event that does not meet the condition splits at the first
such event. -/
theorem exists_first_break {P : σ → ε → Prop} {s t : σ} {es : List ε}
    (h : run step s es = some t) (hbreak : ¬ Along step P s es) :
    ∃ pre e post m m', es = pre ++ e :: post ∧ run step s pre = some m ∧
      Along step P s pre ∧ ¬ P m e ∧ step m e = some m' := by
  induction es generalizing s with
  | nil => exact absurd trivial hbreak
  | cons e es ih =>
      obtain ⟨m, hm, hmt⟩ := run_cons_some h
      by_cases hP : P s e
      · have hrest : ¬ Along step P m es := by
          intro hrest
          refine hbreak ⟨hP, ?_⟩
          intro s' hs'
          cases hm.symm.trans hs'
          exact hrest
        obtain ⟨pre, f, post, u, u', rfl, hpre, halong, hf, hu⟩ := ih hmt hrest
        refine ⟨e :: pre, f, post, u, u', rfl, by simp [hm, hpre], ⟨hP, ?_⟩, hf, hu⟩
        intro s' hs'
        cases hm.symm.trans hs'
        exact halong
      · exact ⟨[], e, es, s, m, rfl, rfl, trivial, hP, hm⟩

/-- **Invariant rule with a side condition.**  A property that every event
meeting `P` keeps holds at the end of every run all of whose events meet `P`. -/
theorem run_invariant_along {P : σ → ε → Prop} {I : σ → Prop}
    (hstep : ∀ s e s', I s → P s e → step s e = some s' → I s')
    {s t : σ} {es : List ε} (hs : I s) (halong : Along step P s es)
    (h : run step s es = some t) : I t := by
  induction es generalizing s with
  | nil =>
      cases h
      exact hs
  | cons e es ih =>
      obtain ⟨m, hm, hmt⟩ := run_cons_some h
      exact ih (hstep s e m hs halong.1 hm) (halong.2 m hm) hmt

/-- **Invariant rule.**  A property that every enabled event keeps holds at the
end of every run. -/
theorem run_invariant {I : σ → Prop}
    (hstep : ∀ s e s', I s → step s e = some s' → I s')
    {s t : σ} {es : List ε} (hs : I s) (h : run step s es = some t) :
    I t := by
  induction es generalizing s with
  | nil =>
      cases h
      exact hs
  | cons e es ih =>
      obtain ⟨m, hm, hmt⟩ := run_cons_some h
      exact ih (hstep s e m hs hm) hmt

/-- The event number `n` of the run from `s` is `e`, and leads from `m` to `m'`. -/
structure StepAt (step : σ → ε → Option σ) (s : σ) (es : List ε) (n : Nat) (m : σ) (e : ε)
    (m' : σ) : Prop where
  event : es[n]? = some e
  before : run step s (es.take n) = some m
  taken : step m e = some m'

/-- A step of the beginning of a run is one of the run. -/
theorem StepAt.of_take {s m m' : σ} {es : List ε} {k n : Nat} {e : ε}
    (h : StepAt step s (es.take k) n m e m') : n < k ∧ StepAt step s es n m e m' := by
  obtain ⟨hevent, hbefore, htaken⟩ := h
  have hn : n < k := by
    by_contra hle
    rw [List.getElem?_take_eq_none (Nat.not_lt.mp hle)] at hevent
    cases hevent
  rw [List.getElem?_take_of_lt hn] at hevent
  rw [List.take_take, Nat.min_eq_left (Nat.le_of_lt hn)] at hbefore
  exact ⟨hn, hevent, hbefore, htaken⟩

/-- **What holds at the end of a run and not at its start** was brought about by one of its
steps. -/
theorem exists_stepAt {Q : σ → Prop} {s t : σ} {es : List ε} (h : run step s es = some t)
    (hs : ¬ Q s) (ht : Q t) : ∃ n m e m', StepAt step s es n m e m' ∧ ¬ Q m ∧ Q m' := by
  induction es generalizing s with
  | nil =>
      cases h
      exact absurd ht hs
  | cons e es ih =>
      obtain ⟨m, hm, hmt⟩ := run_cons_some h
      by_cases hQ : Q m
      · exact ⟨0, s, e, m, ⟨rfl, rfl, hm⟩, hs, hQ⟩
      · obtain ⟨n, u, f, u', ⟨hevent, hbefore, htaken⟩, hchange⟩ := ih hmt hQ
        refine ⟨n + 1, u, f, u', ⟨hevent, ?_, htaken⟩, hchange⟩
        rw [List.take_succ_cons, run_cons, hm]
        exact hbefore

/-- What a step of the run brings about and every enabled event keeps holds at its end. -/
theorem StepAt.kept {I : σ → Prop} (hkeep : ∀ s e s', I s → step s e = some s' → I s')
    {s t m m' : σ} {es : List ε} {n : Nat} {e : ε} (hat : StepAt step s es n m e m')
    (hm' : I m') (h : run step s es = some t) : I t := by
  obtain ⟨hevent, hbefore, htaken⟩ := hat
  rw [← List.take_append_drop (n + 1) es, List.take_add_one, hevent, List.append_assoc,
    run_append, hbefore] at h
  have hrest : run step m (e :: es.drop (n + 1)) = some t := h
  obtain ⟨u, hu, hut⟩ := run_cons_some hrest
  cases htaken.symm.trans hu
  exact run_invariant hkeep hm' hut

/-- What every enabled event keeps holds of all later states of a run. -/
theorem stateAt_invariant {I : σ → Prop} (hstep : ∀ s e s', I s → step s e = some s' → I s')
    {s t : σ} {es : List ε} (h : run step s es = some t) {j k : Nat} (hjk : j ≤ k)
    (hk : k ≤ es.length) (hj : I (stateAt step s es j)) : I (stateAt step s es k) := by
  induction k with
  | zero => exact Nat.le_zero.mp hjk ▸ hj
  | succ k ih =>
      rcases Nat.lt_or_eq_of_le hjk with hlt | rfl
      · have he := List.getElem?_eq_getElem (show k < es.length by omega)
        exact hstep _ _ _ (ih (by omega) (by omega)) (step_stateAt h he)
      · exact hj

/-- The same at every state of the run. -/
theorem throughout_of_along {P : σ → ε → Prop} {I : σ → Prop}
    (hstep : ∀ s e s', I s → P s e → step s e = some s' → I s')
    {s : σ} {es : List ε} (hs : I s) (halong : Along step P s es) :
    Throughout step I s es := by
  induction es generalizing s with
  | nil => exact hs
  | cons e es ih => exact ⟨hs, fun m hm => ih (hstep s e m hs halong.1 hm) (halong.2 m hm)⟩

/-- A weaker condition along the same run. -/
theorem Along.mono {P R : σ → ε → Prop} (hPR : ∀ s e, P s e → R s e) {s : σ} {es : List ε}
    (hP : Along step P s es) : Along step R s es := by
  induction es generalizing s with
  | nil => trivial
  | cons e es ih => exact ⟨hPR s e hP.1, fun m hm => ih (hP.2 m hm)⟩

/-- A weaker property of the same states. -/
theorem Throughout.mono {Q R : σ → Prop} (hQR : ∀ s, Q s → R s) {s : σ} {es : List ε}
    (hQ : Throughout step Q s es) : Throughout step R s es := by
  induction es generalizing s with
  | nil => exact hQR s hQ
  | cons e es ih => exact ⟨hQR s hQ.1, fun m hm => ih (hQ.2 m hm)⟩

/-- A property that a step never restores holds throughout a run if it holds at its
end. -/
theorem throughout_of_last {Q : σ → Prop} (hback : ∀ s e s', step s e = some s' → Q s' → Q s)
    {s t : σ} {es : List ε} (h : run step s es = some t) (hQ : Q t) :
    Throughout step Q s es := by
  induction es generalizing s with
  | nil =>
      cases h
      exact hQ
  | cons e es ih =>
      obtain ⟨m, hm, hmt⟩ := run_cons_some h
      have hrest := ih hmt
      have hQm : Q m := by
        cases es with
        | nil => exact hrest
        | cons f fs => exact hrest.1
      refine ⟨hback s e m hm hQm, ?_⟩
      intro m' hm'
      cases hm.symm.trans hm'
      exact hrest

/-- A property that holds throughout a run holds at its end. -/
theorem Throughout.last {Q : σ → Prop} {s t : σ} {es : List ε}
    (hQ : Throughout step Q s es) (h : run step s es = some t) : Q t := by
  induction es generalizing s with
  | nil =>
      cases h
      exact hQ
  | cons e es ih =>
      obtain ⟨m, hm, hmt⟩ := run_cons_some h
      exact ih (hQ.2 m hm) hmt

/-- **Exact side conditions.**  If, from a state with the invariant `J` and the
property `Q`, an enabled event keeps `Q` exactly when it meets `P`, then a run
stays inside `Q` exactly when all its events meet `P`. -/
theorem throughout_iff_along {J Q : σ → Prop} {P : σ → ε → Prop}
    (hJ : ∀ s e s', J s → step s e = some s' → J s')
    (hiff : ∀ s e s', J s → Q s → step s e = some s' → (Q s' ↔ P s e))
    {s t : σ} {es : List ε} (hJs : J s) (hQs : Q s) (h : run step s es = some t) :
    Throughout step Q s es ↔ Along step P s es := by
  induction es generalizing s with
  | nil => simp [Throughout, Along, hQs]
  | cons e es ih =>
      obtain ⟨m, hm, hmt⟩ := run_cons_some h
      have hstep := hiff s e m hJs hQs hm
      constructor
      · intro hboth
        obtain ⟨_, hrest⟩ := hboth
        have hQm : Q m := by
          have hthere := hrest m hm
          cases es with
          | nil => exact hthere
          | cons f fs => exact hthere.1
        refine ⟨hstep.mp hQm, ?_⟩
        intro s' hs'
        cases hm.symm.trans hs'
        exact (ih (hJ s e m hJs hm) hQm hmt).mp (hrest m hm)
      · intro hboth
        obtain ⟨hP, hrest⟩ := hboth
        refine ⟨hQs, ?_⟩
        intro s' hs'
        cases hm.symm.trans hs'
        exact (ih (hJ s e m hJs hm) (hstep.mpr hP) hmt).mpr (hrest m hm)

/-! ## What can be reached

Progress is stated as the existence of a run whose events all meet a condition;
such runs compose. -/

/-- `t` can be reached from `s` by events that all meet `P`. -/
def Reaches (step : σ → ε → Option σ) (P : ε → Prop) (s t : σ) : Prop :=
  ∃ es, (∀ e ∈ es, P e) ∧ run step s es = some t

theorem Reaches.refl (P : ε → Prop) (s : σ) : Reaches step P s s :=
  ⟨[], by simp, rfl⟩

theorem Reaches.single {P : ε → Prop} {s t : σ} {e : ε} (hP : P e) (he : step s e = some t) :
    Reaches step P s t :=
  ⟨[e], by simpa using hP, by simp [he]⟩

theorem Reaches.trans {P : ε → Prop} {s t u : σ} (hst : Reaches step P s t)
    (htu : Reaches step P t u) : Reaches step P s u := by
  obtain ⟨es, hes, hs⟩ := hst
  obtain ⟨fs, hfs, ht⟩ := htu
  refine ⟨es ++ fs, ?_, ?_⟩
  · intro e he
    rcases List.mem_append.mp he with he | he
    · exact hes e he
    · exact hfs e he
  · rw [run_append, hs]
    exact ht

/-! ## Notes

A machine can be run with notes: its state is extended by what a statement about
the run needs to remember, and an event may be refused because of it.  The notes
do not change what the machine does. -/

section Notes

variable {τ : Type*}

/-- The machine with notes.  `proj` drops the notes of a state, `admits` says which events
are taken, and `note` what is noted when one leads to a state. -/
def noted (step : σ → ε → Option σ) (proj : τ → σ) (admits : τ → ε → Bool)
    (note : τ → ε → σ → τ) (t : τ) (e : ε) : Option τ :=
  if admits t e = true then (step (proj t) e).map (note t e) else none

variable {proj : τ → σ} {admits : τ → ε → Bool} {note : τ → ε → σ → τ}

/-- A step with notes is a step that was admitted, and is noted. -/
theorem noted_some {t t' : τ} {e : ε} (h : noted step proj admits note t e = some t') :
    admits t e = true ∧ ∃ s, step (proj t) e = some s ∧ t' = note t e s := by
  simp only [noted] at h
  split at h
  · rename_i hadmits
    obtain ⟨s, hs, rfl⟩ := Option.map_eq_some_iff.mp h
    exact ⟨hadmits, s, hs, rfl⟩
  · cases h

/-- A run can be taken with notes, if its events are admitted as long as the notes meet `I`. -/
theorem exists_noted_run {I : τ → Prop} (hproj : ∀ t e s, proj (note t e s) = s) {es : List ε}
    (hadmits : ∀ t, I t → ∀ e ∈ es, admits t e = true)
    (hkeep : ∀ t s, I t → ∀ e ∈ es, I (note t e s)) {t : τ} (ht : I t) {s : σ}
    (h : run step (proj t) es = some s) :
    ∃ t', run (noted step proj admits note) t es = some t' ∧ proj t' = s := by
  induction es generalizing t with
  | nil => exact ⟨t, rfl, Option.some.inj h⟩
  | cons e es ih =>
      obtain ⟨m, hm, hrun⟩ := run_cons_some h
      have hstep : noted step proj admits note t e = some (note t e m) := by
        rw [noted, if_pos (hadmits t ht e List.mem_cons_self), hm, Option.map_some]
      rw [← hproj t e m] at hrun
      obtain ⟨t', hrun', ht'⟩ := ih
        (fun t ht e he => hadmits t ht e (List.mem_cons_of_mem _ he))
        (fun t s ht e he => hkeep t s ht e (List.mem_cons_of_mem _ he))
        (hkeep t m ht e List.mem_cons_self) hrun
      exact ⟨t', by rw [run_cons, hstep]; exact hrun', ht'⟩

end Notes

end TransitionRuns
