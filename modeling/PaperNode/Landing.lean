import PaperNode.LedgerQueries
import Mathlib.Algebra.BigOperators.Intervals
import Mathlib.Algebra.BigOperators.Ring.Finset
import Mathlib.Algebra.Order.BigOperators.Group.Finset

/-!
# The distribution schedule

`landing` sends an amount to a destination in every interval of 64 seconds. A period has `2 ^ 19`
intervals. The amount starts from one half of `2 ^ 128` over the first period, is halved with each
period, and in the eighth and last period stays as it was in the seventh.
-/
namespace PaperNode.Landing
open BoundedRecursion Blocks LedgerQueries

/-- Interval = Exponent of 2 in seconds approximately 1 minute = 2^6 = 64 -/
def intervalExponent : ℕ := 6

def intervalsPerPeriod : ℕ := 1 <<< (25 - intervalExponent)

def distributionAmount (interval : ℕ) : ℕ :=
  if interval < intervalsPerPeriod * 1 then 1 <<< (127 - (25 - intervalExponent))
  else if interval < intervalsPerPeriod * 2 then 1 <<< (126 - (25 - intervalExponent))
  else if interval < intervalsPerPeriod * 3 then 1 <<< (125 - (25 - intervalExponent))
  else if interval < intervalsPerPeriod * 4 then 1 <<< (124 - (25 - intervalExponent))
  else if interval < intervalsPerPeriod * 5 then 1 <<< (123 - (25 - intervalExponent))
  else if interval < intervalsPerPeriod * 6 then 1 <<< (122 - (25 - intervalExponent))
  else if interval < intervalsPerPeriod * 7 then 1 <<< (121 - (25 - intervalExponent))
  else if interval < intervalsPerPeriod * 8 then 1 <<< (121 - (25 - intervalExponent))
  else 0

/-- The amount of every interval in a period. -/
def share : ℕ → ℕ
  | 0 => 2 ^ 108
  | 1 => 2 ^ 107
  | 2 => 2 ^ 106
  | 3 => 2 ^ 105
  | 4 => 2 ^ 104
  | 5 => 2 ^ 103
  | 6 => 2 ^ 102
  | 7 => 2 ^ 102
  | _ => 0

theorem share_eq_zero {k : ℕ} (h : 8 ≤ k) : share k = 0 := by
  unfold share
  split <;> omega

theorem share_antitone : Antitone share := by
  refine antitone_nat_of_succ_le ?_
  intro k
  by_cases hk : k < 8
  · revert k
    decide
  · rw [share_eq_zero (by omega)]
    exact Nat.zero_le _

theorem distributionAmount_eq (i : ℕ) : distributionAmount i = share (i / 2 ^ 19) := by
  have hperiod : ∀ m, i < intervalsPerPeriod * m ↔ i / 2 ^ 19 < m := by
    intro m
    rw [Nat.div_lt_iff_lt_mul (by decide), Nat.mul_comm]
    rfl
  unfold distributionAmount
  simp only [hperiod]
  generalize i / 2 ^ 19 = k
  by_cases hk : k < 8
  · revert k
    decide
  · have hlate : ∀ m ≤ 8, ¬ k < m := fun m hm => by omega
    rw [share_eq_zero (Nat.not_lt.mp hk)]
    simp only [hlate 1, hlate 2, hlate 3, hlate 4, hlate 5, hlate 6, hlate 7, hlate 8, if_false,
      Nat.reduceLeDiff]

theorem distributionAmount_antitone : Antitone distributionAmount := by
  intro i j hij
  rw [distributionAmount_eq, distributionAmount_eq]
  exact share_antitone (Nat.div_le_div_right hij)

/-- A sum of values that are the same in each block of `p`. -/
theorem sum_blocks (f : ℕ → ℕ) {p : ℕ} (hp : 0 < p) (q : ℕ) :
    ∑ i ∈ Finset.range (p * q), f (i / p) = p * ∑ k ∈ Finset.range q, f k := by
  induction q with
  | zero => simp
  | succ q ih =>
      have hblock : ∀ i ∈ Finset.range p, f ((p * q + i) / p) = f q := by
        intro i hi
        rw [Nat.mul_add_div hp, Nat.div_eq_of_lt (Finset.mem_range.mp hi), Nat.add_zero]
      rw [Nat.mul_succ, Finset.sum_range_add, ih, Finset.sum_const_nat hblock, Finset.card_range,
        Finset.sum_range_succ, Nat.mul_add]

/-- The schedule adds up to one more than the genesis amount. -/
theorem sum_distributionAmount : ∑ i ∈ Finset.range (2 ^ 22), distributionAmount i = 2 ^ 128 := by
  have hblocks := sum_blocks share (p := 2 ^ 19) (by decide) 8
  have hshares : ∑ k ∈ Finset.range 8, share k = 2 ^ 109 := by decide
  simp only [distributionAmount_eq]
  rw [hshares] at hblocks
  exact hblocks

theorem sum_distributionAmount_mono {m n : ℕ} (h : m ≤ n) :
    ∑ i ∈ Finset.range m, distributionAmount i ≤ ∑ i ∈ Finset.range n, distributionAmount i :=
  Finset.sum_le_sum_of_subset (Finset.range_subset_range.mpr h)

theorem sum_distributionAmount_pred {n total : ℕ}
    (h : ∑ i ∈ Finset.range (n + 1), distributionAmount i = total) :
    ∑ i ∈ Finset.range n, distributionAmount i = total - distributionAmount n := by
  rw [Finset.sum_range_succ] at h
  exact Nat.eq_sub_of_add_eq h

theorem distributionAmount_last : distributionAmount (2 ^ 22 - 1) = 2 ^ 102 := by
  decide

theorem sum_distributionAmount_last :
    ∑ i ∈ Finset.range (2 ^ 22 - 1), distributionAmount i = 2 ^ 128 - 2 ^ 102 := by
  have hall : ∑ i ∈ Finset.range (2 ^ 22 - 1 + 1), distributionAmount i = 2 ^ 128 :=
    sum_distributionAmount
  exact (sum_distributionAmount_pred hall).trans (by rw [distributionAmount_last])

theorem toNat_genesisAmount : genesisAmount.toNat = 2 ^ 128 - 1 := by
  decide

theorem sum_distributionAmount_le_iff (n : ℕ) :
    ∑ i ∈ Finset.range n, distributionAmount i ≤ genesisAmount.toNat ↔ n < 2 ^ 22 := by
  rw [toNat_genesisAmount]
  constructor
  · intro h
    by_contra hn
    have hall := sum_distributionAmount_mono (Nat.not_lt.mp hn)
    rw [sum_distributionAmount] at hall
    exact absurd (hall.trans h) (by decide)
  · intro h
    have hmono := sum_distributionAmount_mono (Nat.le_sub_one_of_lt h)
    rw [sum_distributionAmount_last] at hmono
    exact hmono.trans (by decide)

/-- `send_sync` for an account of an open wallet: without a balance, or with one that is too small,
it is an error. -/
def sendSync (balance amount : ℕ) : Option ℕ :=
  if balance = 0 then none else if amount ≤ balance then some (balance - amount) else none

/-- The times in seconds, and the balance of the account the money comes from. -/
structure LandingState where
  start : Word64
  last : Word64
  balance : ℕ
  deriving DecidableEq, Repr

def distributionInterval : Word64 := 1 <<< intervalExponent

/-- The balance after a number of distributions from a full genesis account. -/
def balanceAfter : ℕ → Option ℕ
  | 0 => some genesisAmount.toNat
  | n + 1 => (balanceAfter n).bind fun balance => sendSync balance (distributionAmount n)

theorem balanceAfter_eq {n : ℕ} (h : n < 2 ^ 22) :
    balanceAfter n = some (2 ^ 128 - 1 - ∑ i ∈ Finset.range n, distributionAmount i) := by
  induction n with
  | zero => rw [Finset.sum_range_zero, Nat.sub_zero, balanceAfter, toNat_genesisAmount]
  | succ n ih =>
      have hpaid := (sum_distributionAmount_le_iff (n + 1)).mpr h
      rw [Finset.sum_range_succ, toNat_genesisAmount] at hpaid
      have hlast : 0 < distributionAmount (2 ^ 22 - 1) := distributionAmount_last ▸ by decide
      have hpositive : 0 < distributionAmount n :=
        lt_of_lt_of_le hlast (distributionAmount_antitone (by omega))
      rw [balanceAfter, ih (by omega), Option.bind_some, sendSync, if_neg (by omega),
        if_pos (by omega), Finset.sum_range_succ, Nat.sub_sub]

theorem balanceAfter_succ_eq_none {n balance : ℕ} (h : balanceAfter n = some balance)
    (hshort : balance < distributionAmount n) : balanceAfter (n + 1) = none := by
  rw [balanceAfter, h, Option.bind_some, sendSync]
  split_ifs
  · rfl
  · omega
  · rfl

/-- The last distribution is never paid. -/
theorem balanceAfter_last : balanceAfter (2 ^ 22) = none := by
  have hlast := balanceAfter_eq (n := 2 ^ 22 - 1) (by decide)
  have hshort : 2 ^ 128 - 1 - ∑ i ∈ Finset.range (2 ^ 22 - 1), distributionAmount i <
      distributionAmount (2 ^ 22 - 1) := by
    rw [sum_distributionAmount_last, distributionAmount_last]
    decide
  exact balanceAfter_succ_eq_none hlast hshort

theorem balanceAfter_eq_none {n : ℕ} (h : 2 ^ 22 ≤ n) : balanceAfter n = none := by
  induction n, h using Nat.le_induction with
  | base => exact balanceAfter_last
  | succ n _ ih => rw [balanceAfter, ih, Option.bind_none]

theorem balanceAfter_isSome_iff (n : ℕ) : (balanceAfter n).isSome ↔ n < 2 ^ 22 := by
  by_cases h : n < 2 ^ 22
  · rw [balanceAfter_eq h]
    exact iff_of_true rfl h
  · rw [balanceAfter_eq_none (Nat.not_lt.mp h)]
    exact iff_of_false (by decide) h

/-- A landing that started from a full account has made `n` payments. -/
structure OnSchedule (n : ℕ) (s : LandingState) : Prop where
  last : s.last = s.start + distributionInterval * BitVec.ofNat 64 n
  balance : balanceAfter n = some s.balance

theorem OnSchedule.lt {n : ℕ} {s : LandingState} (h : OnSchedule n s) : n < 2 ^ 22 :=
  (balanceAfter_isSome_iff n).mp (by rw [h.balance]; rfl)

/-- The number of the next payment, even if the clock of 64 bits starts again in between. -/
theorem OnSchedule.interval {n : ℕ} {s : LandingState} (h : OnSchedule n s) :
    ((s.last - s.start) >>> 6).toNat = n := by
  have hn := h.lt
  have hpassed : s.last - s.start = distributionInterval * BitVec.ofNat 64 n := by
    rw [h.last, BitVec.add_comm, BitVec.add_sub_cancel]
  have hinterval : distributionInterval.toNat = 64 := by decide
  rw [hpassed, BitVec.toNat_ushiftRight, BitVec.toNat_mul, BitVec.toNat_ofNat, hinterval,
    Nat.shiftRight_eq_div_pow]
  omega

theorem OnSchedule.next {n balance : ℕ} {s : LandingState} (h : OnSchedule n s)
    (hsend : sendSync s.balance (distributionAmount n) = some balance) :
    OnSchedule (n + 1) { s with balance := balance, last := s.last + distributionInterval } := by
  constructor
  · show s.last + distributionInterval = _
    rw [h.last, BitVec.ofNat_add, BitVec.mul_add, BitVec.mul_one, BitVec.add_assoc]
  · rw [balanceAfter, h.balance, Option.bind_some, hsend]

/-- The schedule stays within the genesis amount, and can be paid from it, for fewer than all of its
`2 ^ 22` intervals. The amounts never grow. -/
theorem distribution_within_supply_iff (n : ℕ) :
    (∑ i ∈ Finset.range n, distributionAmount i ≤ genesisAmount.toNat ↔ n < 2 ^ 22) ∧
    ((balanceAfter n).isSome ↔ n < 2 ^ 22) ∧ Antitone distributionAmount :=
  ⟨sum_distributionAmount_le_iff n, balanceAfter_isSome_iff n, distributionAmount_antitone⟩

/-- The whole schedule is one unit too much, and the last distribution cannot be paid. -/
theorem distribution_exceeds_supply :
    ∑ i ∈ Finset.range (2 ^ 22), distributionAmount i = genesisAmount.toNat + 1 ∧
      balanceAfter (2 ^ 22) = none :=
  ⟨sum_distributionAmount.trans (by decide), balanceAfter_last⟩

end PaperNode.Landing
