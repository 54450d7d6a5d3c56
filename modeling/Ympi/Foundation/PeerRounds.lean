import Mathlib.Algebra.BigOperators.Ring.Finset
import Mathlib.Algebra.Order.BigOperators.Group.Finset

/-! # Rounds of exchanges without barriers

Parties go through rounds. In a round a party sends one message to each of its peers and
then takes one from each of them, and it goes on to its next round without waiting for
anything else. Two peers are then at most one round apart, which bounds the messages that
can have arrived at a party.
-/

namespace Ympi.Foundation

universe u

/-- Counts of a state: the rounds that each party has completed, the messages `sent party
peer`, and those that have `arrived party peer` and have been `received party peer` at the
party from the peer. -/
structure PeerRounds {ι : Type u} (peers : ι → Finset ι) (rounds : ι → ℕ)
    (sent arrived received : ι → ι → ℕ) : Prop where
  symmetric : ∀ party peer, peer ∈ peers party → party ∈ peers peer
  silent : ∀ party other, other ∉ peers party → sent party other = 0
  /-- A party sends at most one message to a peer in a round. -/
  ahead : ∀ party peer, peer ∈ peers party → sent party peer ≤ rounds party + 1
  /-- A party completes a round only with a message from each peer. -/
  waits : ∀ party peer, peer ∈ peers party → rounds party ≤ received party peer
  arrives : ∀ party peer, arrived party peer ≤ sent peer party
  receives : ∀ party peer, received party peer ≤ arrived party peer

namespace PeerRounds

variable {ι : Type u} {peers : ι → Finset ι} {rounds : ι → ℕ} {sent arrived received : ι → ι → ℕ}
  (counts : PeerRounds peers rounds sent arrived received)

include counts

/-- A peer is at most one round ahead: it has received what this party sent. -/
theorem rounds_le {party peer : ι} (member : peer ∈ peers party) :
    rounds peer ≤ rounds party + 1 :=
  calc rounds peer ≤ received peer party := counts.waits peer party (counts.symmetric _ _ member)
    _ ≤ arrived peer party := counts.receives peer party
    _ ≤ sent party peer := counts.arrives peer party
    _ ≤ rounds party + 1 := counts.ahead party peer member

/-- What has arrived from a peer is at most one message for each round of this party and
two more. -/
theorem arrived_le {party peer : ι} (member : peer ∈ peers party) :
    arrived party peer ≤ rounds party + 2 :=
  calc arrived party peer ≤ sent peer party := counts.arrives party peer
    _ ≤ rounds peer + 1 := counts.ahead peer party (counts.symmetric _ _ member)
    _ ≤ rounds party + 2 := Nat.succ_le_succ (counts.rounds_le member)

/-- Nothing arrives from a party that is no peer. -/
theorem arrived_eq_zero {party other : ι} (stranger : other ∉ peers party) :
    arrived party other = 0 := by
  have unsent : sent other party = 0 := by
    apply counts.silent
    intro member
    exact stranger (counts.symmetric _ _ member)
  have arrives := counts.arrives party other
  omega

/-- **Skew.** What has arrived at a party from all others exceeds what its rounds have
used up by at most two messages for each peer. -/
theorem sum_arrived_le [Fintype ι] (party : ι) :
    ∑ other, arrived party other ≤ (peers party).card * (rounds party + 2) := by
  have outside : ∑ other, arrived party other = ∑ peer ∈ peers party, arrived party peer := by
    refine (Finset.sum_subset (Finset.subset_univ _) ?_).symm
    intro other _ stranger
    exact counts.arrived_eq_zero stranger
  rw [outside]
  refine (Finset.sum_le_card_nsmul _ _ (rounds party + 2) ?_).trans_eq (nsmul_eq_mul _ _)
  intro peer member
  exact counts.arrived_le member

end PeerRounds

end Ympi.Foundation
