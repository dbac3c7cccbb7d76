import Mathlib.Data.Finset.Card
import Mathlib.Data.Fintype.Card
import Mathlib.Tactic.Common

/-!
# Vote registers and majorities

The general part of a leader election.  A voter keeps a register holding a
term and possibly the candidate it voted for in that term.  `Advances` is the
only way such a register may move: to a later term with any vote, or inside a
term from "no vote yet" to a vote.  `Covers votes b` says that the register `b`
still remembers every vote of the history `votes` that could be repeated:
votes of earlier terms can never be repeated, and the vote of the present term
is the one in the register.

* `Covers.advance` — advancing a register keeps it covering;
* `Covers.cast` — casting the vote now in the register keeps it covering;
* `OneVotePerTerm.cast` — hence no voter ever votes for two candidates in a term;
* `majorities_intersect`, `winner_unique` — two candidates with majorities of
  the votes of one term are the same candidate.
-/

namespace MajorityVotes

/-- A vote register: the current term and the candidate voted for in it. -/
structure Ballot (τ κ : Type*) where
  term : τ
  vote : Option κ

variable {τ κ : Type*} [LinearOrder τ]

/-- The register may move on to a later term, or fill in or keep its vote
inside the present term. -/
def Advances (b b' : Ballot τ κ) : Prop :=
  b.term < b'.term ∨ b.term = b'.term ∧ (b.vote = none ∨ b.vote = b'.vote)

/-- The register remembers every vote of the history that could be repeated. -/
def Covers (votes : List (τ × κ)) (b : Ballot τ κ) : Prop :=
  ∀ v ∈ votes, v.1 < b.term ∨ v.1 = b.term ∧ b.vote = some v.2

/-- The history never names two candidates in one term. -/
def OneVotePerTerm (votes : List (τ × κ)) : Prop :=
  ∀ v ∈ votes, ∀ v' ∈ votes, v.1 = v'.1 → v.2 = v'.2

theorem Advances.refl (b : Ballot τ κ) : Advances b b :=
  Or.inr ⟨rfl, Or.inr rfl⟩

theorem Advances.trans {a b c : Ballot τ κ}
    (hab : Advances a b) (hbc : Advances b c) : Advances a c := by
  rcases hab with hab | ⟨hab, hv⟩
  · rcases hbc with hbc | ⟨hbc, _⟩
    · exact Or.inl (hab.trans hbc)
    · exact Or.inl (hbc ▸ hab)
  · rcases hbc with hbc | ⟨hbc, hw⟩
    · exact Or.inl (hab ▸ hbc)
    · refine Or.inr ⟨hab.trans hbc, ?_⟩
      rcases hv with hv | hv
      · exact Or.inl hv
      · exact hw.imp hv.trans hv.trans

/-- A register never goes back to an earlier term. -/
theorem Advances.term_le {b b' : Ballot τ κ} (h : Advances b b') :
    b.term ≤ b'.term := by
  rcases h with h | ⟨h, _⟩
  · exact h.le
  · exact h.le

theorem covers_nil (b : Ballot τ κ) : Covers [] b := by
  intro v hv
  cases hv

/-- Advancing a register keeps it covering. -/
theorem Covers.advance {votes : List (τ × κ)} {b b' : Ballot τ κ}
    (h : Covers votes b) (hadv : Advances b b') : Covers votes b' := by
  intro v hv
  rcases h v hv with hlt | ⟨heq, hvote⟩
  · exact Or.inl (hlt.trans_le hadv.term_le)
  · rcases hadv with hadv | ⟨hterm, hkeep⟩
    · exact Or.inl (heq ▸ hadv)
    · refine Or.inr ⟨heq.trans hterm, ?_⟩
      rcases hkeep with hnone | hsame
      · simp [hvote] at hnone
      · rw [← hsame, hvote]

/-- Casting votes that the register now holds keeps it covering. -/
theorem Covers.cast {votes new : List (τ × κ)} {b : Ballot τ κ}
    (h : Covers votes b) (hnew : ∀ v ∈ new, v.1 = b.term ∧ b.vote = some v.2) :
    Covers (new ++ votes) b := by
  intro v hv
  rcases List.mem_append.mp hv with hv | hv
  · exact Or.inr (hnew v hv)
  · exact h v hv

/-- A covering register holds the only vote of its own term. -/
theorem Covers.vote_eq {votes : List (τ × κ)} {b : Ballot τ κ} {c : κ}
    (h : Covers votes b) (hc : b.vote = some c) :
    ∀ v ∈ votes, v.1 = b.term → v.2 = c := by
  intro v hv hterm
  rcases h v hv with hlt | ⟨_, hvote⟩
  · exact absurd hterm hlt.ne
  · rw [hc] at hvote
    exact (Option.some.inj hvote).symm

/-- Votes taken from a covering register agree with the whole history. -/
theorem OneVotePerTerm.cast {votes new : List (τ × κ)} {b : Ballot τ κ}
    (h : OneVotePerTerm votes) (hcov : Covers votes b)
    (hnew : ∀ v ∈ new, v.1 = b.term ∧ b.vote = some v.2) :
    OneVotePerTerm (new ++ votes) := by
  have hall : Covers (new ++ votes) b := hcov.cast hnew
  intro v hv v' hv' hterm
  rcases List.mem_append.mp hv with hv | hold
  · obtain ⟨hvt, hvote⟩ := hnew v hv
    exact (hall.vote_eq hvote v' hv' (hterm.symm.trans hvt)).symm
  · rcases List.mem_append.mp hv' with hv' | hold'
    · obtain ⟨hvt, hvote⟩ := hnew v' hv'
      exact hall.vote_eq hvote v hv (hterm.trans hvt)
    · exact h v hold v' hold' hterm

/-- A history that a register does not cover holds a vote that the register
would let its voter contradict. -/
theorem exists_uncovered {votes : List (τ × κ)} {b : Ballot τ κ}
    (h : ¬ Covers votes b) :
    ∃ v ∈ votes, b.term < v.1 ∨ b.term = v.1 ∧ b.vote ≠ some v.2 := by
  unfold Covers at h
  push Not at h
  obtain ⟨v, hv, hle, hne⟩ := h
  refine ⟨v, hv, ?_⟩
  rcases hle.lt_or_eq with hlt | heq
  · exact Or.inl hlt
  · exact Or.inr ⟨heq, hne heq.symm⟩

/-! ## Majorities -/

section Majorities

variable {ν : Type*} [Fintype ν] [DecidableEq ν]

/-- Two majorities share a member. -/
theorem majorities_intersect {Q R : Finset ν}
    (hQ : Fintype.card ν / 2 + 1 ≤ Q.card)
    (hR : Fintype.card ν / 2 + 1 ≤ R.card) : ∃ v, v ∈ Q ∧ v ∈ R := by
  by_contra hdisj
  push Not at hdisj
  have hd : Disjoint Q R := Finset.disjoint_left.mpr fun v hQ hR => hdisj v hQ hR
  have hcard : (Q ∪ R).card = Q.card + R.card := Finset.card_union_of_disjoint hd
  have hle : (Q ∪ R).card ≤ Fintype.card ν := Finset.card_le_univ _
  omega

omit [LinearOrder τ] in
/-- **One winner per term.**  When every voter names one candidate per term,
two candidates that a majority voted for in one term coincide. -/
theorem winner_unique {votes : ν → List (τ × κ)}
    (hone : ∀ v, OneVotePerTerm (votes v)) {t : τ} {c d : κ} {Q R : Finset ν}
    (hQ : Fintype.card ν / 2 + 1 ≤ Q.card)
    (hR : Fintype.card ν / 2 + 1 ≤ R.card)
    (hc : ∀ v ∈ Q, (t, c) ∈ votes v) (hd : ∀ v ∈ R, (t, d) ∈ votes v) :
    c = d := by
  obtain ⟨v, hvQ, hvR⟩ := majorities_intersect hQ hR
  exact hone v _ (hc v hvQ) _ (hd v hvR) rfl

end Majorities

end MajorityVotes
