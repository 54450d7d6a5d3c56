import Ympi.Shuffle.Factors
import Mathlib.NumberTheory.SmoothNumbers

/-! # The numbers of the table

The table lists all numbers up to `MAX_NPROCS` that have no prime factors but 2, 3 and 5, in
increasing order. So what the lookup finds is the largest such number that is not too large.
-/

namespace Ympi.Shuffle

/-- A list that has 1, and with every number its products with some primes up to a limit, has all
numbers up to the limit with no other prime factors. -/
theorem mem_of_mul_mem {primes : Finset ℕ} {limit : ℕ} {numbers : List ℕ} (one : 1 ∈ numbers)
    (closed : ∀ p ∈ primes, ∀ number ∈ numbers, p * number ≤ limit → p * number ∈ numbers)
    {number : ℕ} (factored : number ∈ Nat.factoredNumbers primes) (small : number ≤ limit) :
    number ∈ numbers := by
  induction number using Nat.strong_induction_on with
  | _ number ih =>
      by_cases unit : number = 1
      · rw [unit]
        exact one
      · have prime := Nat.minFac_prime unit
        obtain ⟨rest, product⟩ := Nat.minFac_dvd number
        have factored' : rest ∈ Nat.factoredNumbers primes :=
          Nat.mem_factoredNumbers_of_dvd factored (Dvd.intro_left _ product.symm)
        have positive := Nat.pos_of_ne_zero (Nat.ne_zero_of_mem_factoredNumbers factored')
        have smaller : rest < number := by
          rw [product]
          exact lt_mul_of_one_lt_left positive prime.one_lt
        have member := ih rest smaller factored' (smaller.le.trans small)
        have allowed := Nat.mem_factoredNumbers'.mp factored number.minFac prime
          (Nat.minFac_dvd number)
        rw [product] at small ⊢
        exact closed _ allowed rest member small

/-- The largest number up to a limit that has no prime factors but 2, 3 and 5. -/
def IsRounded (limit number : ℕ) : Prop :=
  IsGreatest {smooth | 0 < smooth ∧ (∀ p, p.Prime → p ∣ smooth → p = 2 ∨ p = 3 ∨ p = 5) ∧
    smooth ≤ limit} number

section Table

/-- The numbers of the table. -/
def numbers : List ℕ :=
  factorized.map Factorized.number

theorem factorized_increasing :
    factorized.Pairwise fun entry other => entry.number < other.number := by
  have increasing : numbers.IsChain (· < ·) := by decide +kernel
  exact List.pairwise_map.mp increasing.pairwise

/-- The products of the numbers with a factor, as far as they are not too large, are in the
table. -/
theorem numbers_closed : ∀ p ∈ ({2, 3, 5} : Finset ℕ), ∀ number ∈ numbers, p * number ≤ 163840 →
    p * number ∈ numbers := by
  -- Both lists are in order, so one pass over them is enough.
  have inside : ∀ p ∈ [2, 3, 5],
      ((numbers.map (p * ·)).filter (· ≤ 163840)).Sublist numbers := by decide +kernel
  intro p factor number member small
  refine (inside p (by simpa using factor)).subset (List.mem_filter.mpr ⟨?_, ?_⟩)
  · exact List.mem_map_of_mem member
  · exact decide_eq_true small

/-- **The table is complete.** -/
theorem mem_numbers {number : ℕ} (factored : number ∈ Nat.factoredNumbers {2, 3, 5})
    (small : number ≤ 163840) : number ∈ numbers :=
  mem_of_mul_mem List.mem_cons_self numbers_closed factored small

/-- An entry has the factors that its exponents say, and no others. -/
theorem Factorized.Exact.factored {entry : Factorized} (exact : entry.Exact) :
    entry.number ∈ Nat.factoredNumbers {2, 3, 5} := by
  have number : entry.number = 2 ^ entry.factor.n0 * 3 ^ entry.factor.n1 * 5 ^ entry.factor.n2 :=
    exact
  have power {p : ℕ} (prime : p.Prime) (factor : p ∈ ({2, 3, 5} : Finset ℕ)) (n : ℕ) :
      p ^ n ∈ Nat.factoredNumbers {2, 3, 5} := by
    refine Nat.mem_factoredNumbers'.mpr fun q prime' divides => ?_
    rw [(Nat.prime_dvd_prime_iff_eq prime' prime).mp (prime'.dvd_of_dvd_pow divides)]
    exact factor
  rw [number]
  exact Nat.mul_mem_factoredNumbers (Nat.mul_mem_factoredNumbers
    (power Nat.prime_two (by decide) _) (power Nat.prime_three (by decide) _))
    (power Nat.prime_five (by decide) _)

end Table

/-- In a table in order the loop finds the last entry that is not too large. -/
theorem findLargestFrom_greatest {number : ℕ} {last : Option Factorized}
    {entries : List Factorized} {entry : Factorized}
    (increasing : entries.Pairwise fun entry other => entry.number < other.number)
    (found : findLargestFrom number last entries = some entry) :
    ∀ other ∈ entries, other.number ≤ number → other.number ≤ entry.number := by
  induction entries generalizing last with
  | nil => cases found
  | cons next rest ih =>
      obtain ⟨above, increasing'⟩ := List.pairwise_cons.mp increasing
      rw [findLargestFrom] at found
      intro other member fits
      split at found
      next =>
        rcases List.mem_cons.mp member with rfl | later
        · rcases findLargestFrom_some found with same | ⟨listed, -⟩
          · cases same
            exact le_rfl
          · exact (above entry listed).le
        · exact ih increasing' found other later fits
      next large =>
        rcases List.mem_cons.mp member with rfl | later
        · exact absurd fits large
        · exact absurd ((above other later).le.trans fits) large

/-- What the lookup finds is the number rounded down. -/
theorem isRounded_of_found {number : ℕ} {entry : Factorized}
    (found : findLargestNoLargerThan number = some entry) (small : number ≤ 163840) :
    IsRounded number entry.number := by
  rcases findLargestFrom_some found with impossible | ⟨listed, fits⟩
  · cases impossible
  refine ⟨⟨factorized_pos entry listed, ?_, fits⟩, ?_⟩
  · intro p prime divides
    have factored := (factorized_exact entry listed).factored
    simpa using Nat.mem_factoredNumbers'.mp factored p prime divides
  · rintro smooth ⟨-, factors, below⟩
    have factored : smooth ∈ Nat.factoredNumbers {2, 3, 5} :=
      Nat.mem_factoredNumbers'.mpr fun p prime divides => by
        simpa using factors p prime divides
    obtain ⟨other, listed', rfl⟩ := List.mem_map.mp (mem_numbers factored (below.trans small))
    exact findLargestFrom_greatest factorized_increasing found other listed' below

/-- **The best size.** For every number below `MAX_NPROCS` the lookup finds an entry whose number
is the product of its factors, and the largest number without other prime factors that is not too
large. -/
theorem findLargest_isGreatest {number : ℕ} (positive : 1 ≤ number) (below : number < 163840) :
    ∃ entry, findLargestNoLargerThan number = some entry ∧ entry.number ≤ number ∧
      entry.number = 2 ^ entry.factor.n0 * 3 ^ entry.factor.n1 * 5 ^ entry.factor.n2 ∧
      IsGreatest {smooth | 0 < smooth ∧ (∀ p, p.Prime → p ∣ smooth → p = 2 ∨ p = 3 ∨ p = 5) ∧
        smooth ≤ number} entry.number := by
  obtain ⟨entry, listed, found, small⟩ := findLargestNoLargerThan_ok positive below
  exact ⟨entry, found, small, factorized_exact entry listed, isRounded_of_found found below.le⟩

/-- For 39 the lookup finds an entry with a number from 36 on. -/
theorem findLargest_isGreatest_39 : ∃ entry, findLargestNoLargerThan 39 = some entry ∧
    36 ≤ entry.number := by
  obtain ⟨entry, found, -, -, -, upper⟩ :=
    findLargest_isGreatest (show 1 ≤ 39 by decide) (by decide)
  refine ⟨entry, found, upper ⟨by decide, ?_, by decide⟩⟩
  intro p prime divides
  have factors := Nat.mem_factoredNumbers'.mp
    (show (⟨36, 2, 2, 0⟩ : Factorized).Exact from rfl).factored p prime divides
  simpa using factors

end Ympi.Shuffle
