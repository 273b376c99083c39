import Mathlib.Data.BitVec
import PaperNode.GroupedSums
import PaperNode.VoteRecords

/-!
# Tallying votes

`ledger.tally` adds up the weights of the votes for every block and then lists
the blocks by their totals, greatest first. Both maps it goes through have their
traps. The first is keyed by the whole block, signature and work included, while
a vote signs the block's hash. The second is keyed by the total, so of the blocks
with one total only the last one visited stays.

The two unordered maps are visited in an order the program does not fix. An
`Iteration` is a choice of both orders.
-/
namespace PaperNode.Tally
open OrderedTable GroupedSums Words Blocks BlockStore LedgerQueries LedgerProcess ProcessSteps
open ChainInvariant RollbackSteps LedgerRuns VoteRecords

/-- In which order `rep_votes` and `totals` are visited. -/
structure Iteration where
  repVotes : List (Account × Word64 × Block) → List (Account × Word64 × Block)
  repVotes_perm : ∀ l, (repVotes l).Perm l
  totals : List (Block × Amount) → List (Block × Amount)
  totals_perm : ∀ l, (totals l).Perm l

def Iteration.inPlace : Iteration := ⟨id, fun _ => .refl _, id, fun _ => .refl _⟩

/-- A given total is visited last. -/
def Iteration.lastly (e : Block × Amount) : Iteration where
  repVotes := id
  repVotes_perm := fun _ => .refl _
  totals := fun l => if e ∈ l then l.erase e ++ [e] else l
  totals_perm := by
    intro l
    split_ifs with he
    · exact (List.perm_append_singleton e _).trans (List.perm_cons_erase he).symm
    · exact .refl _

theorem Iteration.totals_lastly {e : Block × Amount} {l : List (Block × Amount)} (he : e ∈ l) :
    (Iteration.lastly e).totals l = l.erase e ++ [e] := if_pos he

def voteTotals (s : Store) (it : Iteration) (vs : Votes) : List (Block × Amount) :=
  sums ((it.repVotes vs.repVotes.entries).map (fun e => (e.2.2, weight s e.1)))

/-- `ledger::tally`. The keys are in decreasing order. -/
def tally (s : Store) (it : Iteration) (vs : Votes) : Table Amountᵒᵈ Block :=
  Table.ofEntries ((it.totals (voteTotals s it vs)).map (fun e => (OrderDual.toDual e.2, e.1)))

def Voted (vs : Votes) (b : Block) : Prop := ∃ a q, vs.repVotes.get a = some (q, b)

def votesFor (s : Store) (vs : Votes) (b : Block) : ℕ :=
  vs.repVotes.total (fun a e => if e.2 = b then (weight s a).toNat else 0)

/-- The same as the 128-bit number the program computes. -/
def totalFor (s : Store) (vs : Votes) (b : Block) : Amount := BitVec.ofNat 128 (votesFor s vs b)

variable {E : Env} {s s' : Store} {it : Iteration} {vs : Votes} {b c : Block} {w : Amount}

theorem sum_weights (es : List (Account × Word64 × Block)) (b : Block) :
    sumOf b (es.map (fun e => (e.2.2, weight s e.1))) = BitVec.ofNat 128
      (es.foldr (fun e acc => (if e.2.2 = b then (weight s e.1).toNat else 0) + acc) 0) := by
  induction es with
  | nil => rfl
  | cons e es ih =>
      simp only [sumOf, List.map_cons, List.sum_cons, List.foldr_cons] at ih ⊢
      rw [ih, BitVec.ofNat_add]
      congr 1
      split_ifs
      · simp
      · rfl

theorem mem_voteTotals : (b, w) ∈ voteTotals s it vs ↔ Voted vs b ∧ w = totalFor s vs b := by
  have hp := (it.repVotes_perm vs.repVotes.entries).map (fun e => (e.2.2, weight s e.1))
  unfold voteTotals
  rw [mem_sums, sumOf_perm hp, sum_weights]
  apply and_congr_left
  intro _
  rw [(hp.map Prod.fst).mem_iff]
  simp only [List.map_map, List.mem_map, Function.comp_apply, Prod.exists]
  constructor
  · intro h
    obtain ⟨a, q, b', hm, rfl⟩ := h
    exact ⟨a, q, Table.mem_entries.mp hm⟩
  · intro h
    obtain ⟨a, q, hg⟩ := h
    exact ⟨a, q, b, Table.mem_entries.mpr hg, rfl⟩

def hashVotes (E : Env) (s : Store) (vs : Votes) (h : BlockHash) : ℕ :=
  vs.repVotes.total (fun a e => if E.hash e.2 = h then (weight s a).toNat else 0)

theorem hashVotes_eq (hone : ∀ c, Voted vs c → E.hash c = E.hash b → c = b) :
    hashVotes E s vs (E.hash b) = votesFor s vs b := by
  unfold hashVotes votesFor Table.total
  apply Table.fold_congr
  intro a e he
  by_cases hb : e.2 = b
  · simp [hb]
  · have hh : E.hash e.2 ≠ E.hash b := fun hh => hb (hone e.2 ⟨a, e.1, he⟩ hh)
    simp [hb, hh]

/-- All votes for one hash are counted in one total exactly when no two blocks
voted for have one hash and differ, in signature, work or otherwise. -/
theorem one_total_per_hash_iff (E : Env) (s : Store) (it : Iteration) (vs : Votes) :
    (∀ e ∈ voteTotals s it vs,
        e.2 = BitVec.ofNat 128 (hashVotes E s vs (E.hash e.1)) ∧
        ∀ f ∈ voteTotals s it vs, E.hash f.1 = E.hash e.1 → f = e) ↔
      ∀ b c, Voted vs b → Voted vs c → E.hash c = E.hash b → c = b := by
  constructor
  · intro hall b c hb hc hh
    have he := (hall (b, totalFor s vs b) (mem_voteTotals.mpr ⟨hb, rfl⟩)).2
      (c, totalFor s vs c) (mem_voteTotals.mpr ⟨hc, rfl⟩) hh
    exact congrArg Prod.fst he
  · intro hone e he
    obtain ⟨hb, hw⟩ := mem_voteTotals.mp he
    constructor
    · rw [hashVotes_eq (fun c hc hh => hone e.1 c hb hc hh)]
      exact hw
    · intro f hf hh
      obtain ⟨hc, hw'⟩ := mem_voteTotals.mp hf
      have hfe : f.1 = e.1 := hone e.1 f.1 hb hc hh
      apply Prod.ext hfe
      rw [hw, hw', hfe]

/-- A relay gives the block of a vote another work value. -/
def relayed : Vote := { firstBallot with
  block := .sendBlock
    ⟨⟨testGenesisHash, firstAccount, genesisAmount - 100⟩, send₁.signature, 1⟩ }

/-- Two good votes for one block, one of them relayed with another work value,
are counted apart. -/
theorem relay_splits_votes : ¬ ∀ E s it id past, Reachable E s → (∀ v ∈ past, v.Signed E) →
    ∀ e ∈ voteTotals s it ((Votes.new id).voteAll E past),
      e.2 = BitVec.ofNat 128 (hashVotes E s ((Votes.new id).voteAll E past) (E.hash e.1)) := by
  intro hall
  have hrun : executes ballotNetwork 20 [.process send₁, .process open₁] (fun s =>
      decide ((send₁, genesisAmount - 100) ∈
        voteTotals s .inPlace
          ((Votes.new testGenesisHash).voteAll ballotNetwork [ballot₁, relayed]))
      && decide (hashVotes ballotNetwork s
        ((Votes.new testGenesisHash).voteAll ballotNetwork [ballot₁, relayed]) send₁Hash =
          genesisAmount.toNat)) = true := by
    decide +kernel
  obtain ⟨s, hx, ht⟩ := exists_of_executes hrun
  simp only [Bool.and_eq_true, decide_eq_true_eq] at ht
  have hsigned : ∀ v ∈ [ballot₁, relayed], v.Signed ballotNetwork := by
    unfold Vote.Signed
    decide +kernel
  have hone := hall ballotNetwork s .inPlace testGenesisHash [ballot₁, relayed]
    (execute_reachable hx) hsigned _ ht.1
  have hhash : ballotNetwork.hash send₁ = send₁Hash := by
    decide +kernel
  rw [hhash, ht.2] at hone
  revert hone
  decide +kernel

theorem mem_of_get_tally (h : (tally s it vs).get (OrderDual.toDual w) = some b) :
    Voted vs b ∧ w = totalFor s vs b := by
  obtain ⟨e, he, hb⟩ := List.mem_map.mp (Table.mem_of_get_ofEntries h)
  cases hb
  exact mem_voteTotals.mp ((it.totals_perm _).mem_iff.mp he)

theorem exists_get_tally (it : Iteration) (hb : Voted vs b) :
    ∃ c, (tally s it vs).get (OrderDual.toDual (totalFor s vs b)) = some c := by
  apply Table.exists_get_ofEntries (v := b)
  apply List.mem_map.mpr
  exact ⟨(b, totalFor s vs b), (it.totals_perm _).mem_iff.mpr (mem_voteTotals.mpr ⟨hb, rfl⟩), rfl⟩

theorem tally_first (h : (tally s it vs).first = some (OrderDual.toDual w, b)) :
    Voted vs b ∧ w = totalFor s vs b ∧
      ∀ c, Voted vs c → (totalFor s vs c).toNat ≤ (totalFor s vs b).toNat := by
  obtain ⟨hg, hmin⟩ := Table.first_eq_some.mp h
  obtain ⟨hb, rfl⟩ := mem_of_get_tally hg
  refine ⟨hb, rfl, ?_⟩
  intro c hc
  obtain ⟨d, hd⟩ := exists_get_tally it hc
  exact hmin _ d hd

/-- Of the blocks with the greatest total, the one visited last wins. -/
theorem tally_first_lastly (hb : Voted vs b)
    (hmax : ∀ c, Voted vs c → (totalFor s vs c).toNat ≤ (totalFor s vs b).toNat) :
    (tally s (.lastly (b, totalFor s vs b)) vs).first =
      some (OrderDual.toDual (totalFor s vs b), b) := by
  have hm : (b, totalFor s vs b) ∈ voteTotals s (.lastly (b, totalFor s vs b)) vs :=
    mem_voteTotals.mpr ⟨hb, rfl⟩
  rw [Table.first_eq_some]
  constructor
  · unfold tally
    rw [Iteration.totals_lastly hm, List.map_append, List.map_singleton, Table.ofEntries_snoc,
      Table.get_put_self]
  · intro j d hd
    obtain ⟨hv, hj⟩ := mem_of_get_tally (w := OrderDual.ofDual j) hd
    have := hmax d hv
    rw [← hj] at this
    exact this

theorem tally_length_eq_one (h : (tally s it vs).first = some (OrderDual.toDual w, b)) :
    (tally s it vs).entries.length = 1 ↔ ∀ c, Voted vs c → totalFor s vs c = w := by
  obtain ⟨hg, _⟩ := Table.first_eq_some.mp h
  rw [Table.length_eq_one_iff hg]
  constructor
  · intro hone c hc
    obtain ⟨d, hd⟩ := exists_get_tally (s := s) it hc
    exact OrderDual.toDual_inj.mp (hone _ d hd)
  · intro hall j d hd
    obtain ⟨hv, hj⟩ := mem_of_get_tally (w := OrderDual.ofDual j) hd
    rw [hall d hv] at hj
    exact hj

def weightTotal (s : Store) : ℕ := s.representation.total (fun _ w => w.toNat)

/-- A move that leaves the source no less than zero keeps the sum. -/
theorem total_shiftWeight {t : Table Account Amount} {x y : Account} {v : Amount}
    (hle : v.toNat ≤ ((t.get x).getD 0).toNat) (hlt : t.total (fun _ w => w.toNat) < 2 ^ 128) :
    (shiftWeight t x y v).total (fun _ w => w.toNat) = t.total (fun _ w => w.toNat) := by
  have elim : ∀ (u : Table Account Amount) z,
      (u.get z).elim 0 (fun w => w.toNat) = ((u.get z).getD 0).toNat := by
    intro u z
    cases u.get z <;> rfl
  unfold shiftWeight
  dsimp only
  have htaken := Table.total_put (fun _ w => w.toNat) t x ((t.get x).getD 0 - v)
  generalize htk : t.put x ((t.get x).getD 0 - v) = taken at htaken
  have hput := Table.total_put (fun _ w => w.toNat) taken y ((taken.get y).getD 0 + v)
  rw [elim] at htaken hput
  have hsub : ((t.get x).getD 0 - v).toNat = ((t.get x).getD 0).toNat - v.toNat :=
    BitVec.toNat_sub_of_le hle
  -- What is added was taken away before, so the sum bounds the new weight.
  have hbound : ((taken.get y).getD 0).toNat ≤ taken.total (fun _ w => w.toNat) := by
    cases hy : taken.get y with
    | none => simp
    | some w => exact Table.le_total (fun _ w => w.toNat) hy
  have hadd : ((taken.get y).getD 0 + v).toNat = ((taken.get y).getD 0).toNat + v.toNat := by
    rw [BitVec.toNat_add, Nat.mod_eq_of_lt]
    omega
  omega

theorem moved_weightTotal {B : BlockLattice.Lattice} {x y : BlockHash} {v : Amount}
    (hw : E.weightAssert = true) (hm : Moved E B s s' x y v)
    (hs : weightTotal s = genesisAmount.toNat) : weightTotal s' = genesisAmount.toNat := by
  obtain ⟨b, c, _, _, _, _, hle, hr⟩ := hm
  have hlt : weightTotal s < 2 ^ 128 := by
    rw [hs]
    exact genesisAmount.isLt
  unfold weightTotal at *
  rw [hr, total_shiftWeight (hle hw) hlt, hs]

/-- While the weight assertion is compiled in, the weights add up to the money. -/
theorem reachable_weightTotal (hw : E.weightAssert = true) (h : Reachable E s) :
    weightTotal s = genesisAmount.toNat := by
  refine reachable_invariant (I := fun s => weightTotal s = genesisAmount.toNat) ?_ ?_ ?_ h
  · intro s hg
    have hput := Table.total_put (fun _ (w : Amount) => w.toNat) ∅ E.genesisAccount genesisAmount
    unfold weightTotal
    rw [hg.representation]
    simpa using hput
  · intro s b s' _ hs ha
    obtain ⟨a, info, _, hp⟩ := ha
    cases hp with
    | send _ _ _ _ _ hr =>
        unfold weightTotal
        rw [hr]
        exact hs
    | receive _ _ _ _ _ _ _ hm => exact moved_weightTotal hw hm hs
    | opened _ _ _ _ _ _ _ _ hm => exact moved_weightTotal hw hm hs
    | change _ _ _ _ _ hm => exact moved_weightTotal hw hm hs
  · intro s k s' _ hs hp
    obtain ⟨b, a, info, _, hr⟩ := hp
    cases hr with
    | send _ _ _ _ hr =>
        unfold weightTotal
        rw [hr]
        exact hs
    | receive _ _ _ _ _ _ hm => exact moved_weightTotal hw hm hs
    | opened _ _ _ _ _ hm => exact moved_weightTotal hw hm hs
    | change _ _ _ _ hm => exact moved_weightTotal hw hm hs

def votingWeight (s : Store) (vs : Votes) : ℕ := vs.repVotes.total (fun a _ => (weight s a).toNat)

theorem votesFor_le (s : Store) (vs : Votes) (b : Block) : votesFor s vs b ≤ votingWeight s vs := by
  apply Table.total_mono
  intro a e
  split_ifs
  · exact le_rfl
  · exact Nat.zero_le _

theorem votingWeight_le (s : Store) (vs : Votes) : votingWeight s vs ≤ weightTotal s := by
  have h := Table.sum_lookups_le (fun _ w => w.toNat) s.representation vs.repVotes.nodup_keys
  rw [List.foldr_map] at h
  refine le_trans (le_of_eq ?_) h
  unfold votingWeight Table.total Table.fold
  apply List.foldr_ext
  intro e _ acc
  unfold weight Store.representationGet
  dsimp only
  cases s.representation.get e.1 <;> rfl

/-- No total wraps in a ledger the program builds. -/
theorem reachable_votingWeight (hw : E.weightAssert = true) (h : Reachable E s) (vs : Votes) :
    votingWeight s vs < 2 ^ 128 := by
  have hle := votingWeight_le s vs
  rw [reachable_weightTotal hw h] at hle
  exact lt_of_le_of_lt hle genesisAmount.isLt

theorem totalFor_toNat (hsum : votingWeight s vs < 2 ^ 128) (b : Block) :
    (totalFor s vs b).toNat = votesFor s vs b := by
  unfold totalFor
  rw [BitVec.toNat_ofNat]
  exact Nat.mod_eq_of_lt (lt_of_le_of_lt (votesFor_le s vs b) hsum)

theorem tally_decreasing (s : Store) (it : Iteration) (vs : Votes) :
    (tally s it vs).entries.Pairwise
      (fun e f => (OrderDual.ofDual f.1).toNat < (OrderDual.ofDual e.1).toNat) := by
  apply (tally s it vs).sorted.imp
  intro e f hlt
  exact BitVec.lt_def.mp (OrderDual.ofDual_lt_ofDual.mpr hlt)

/-- The listing pairs every block voted for with the weight of its voters exactly when no
two of the blocks have one weight. -/
theorem tally_faithful_iff (it : Iteration) (hsum : votingWeight s vs < 2 ^ 128) :
    ((∀ b, Voted vs b → ∃ w, (OrderDual.toDual w, b) ∈ (tally s it vs).entries ∧
        w.toNat = votesFor s vs b) ∧
      (tally s it vs).entries.Pairwise
        (fun e f => (OrderDual.ofDual f.1).toNat < (OrderDual.ofDual e.1).toNat)) ↔
      ∀ b c, Voted vs b → Voted vs c → votesFor s vs b = votesFor s vs c → b = c := by
  constructor
  · intro hall b c hb hc he
    obtain ⟨w, hw, hwb⟩ := hall.1 b hb
    obtain ⟨x, hx, hxc⟩ := hall.1 c hc
    have hwx : w = x := BitVec.eq_of_toNat_eq (by rw [hwb, hxc, he])
    have hgb := Table.mem_entries.mp hw
    rw [hwx, Table.mem_entries.mp hx] at hgb
    exact (Option.some.inj hgb).symm
  · intro hone
    refine ⟨?_, tally_decreasing s it vs⟩
    intro b hb
    obtain ⟨c, hc⟩ := exists_get_tally (s := s) it hb
    obtain ⟨hv, he⟩ := mem_of_get_tally hc
    have hbc : b = c := by
      apply hone b c hb hv
      rw [← totalFor_toNat hsum b, ← totalFor_toNat hsum c, he]
    subst hbc
    exact ⟨_, Table.mem_entries.mpr hc, totalFor_toNat hsum b⟩

def splitVotes : Votes :=
  { Votes.new testGenesisHash with
    repVotes := ((∅ : Table Account (Word64 × Block)).put firstAccount (1, send₁)).put
      secondAccount (1, sendOdd) }

def weighing (x y : Amount) : Store :=
  { newStore with
    representation := ((∅ : Table Account Amount).put firstAccount x).put secondAccount y }

theorem voted_splitVotes (hb : Voted splitVotes b) : b = send₁ ∨ b = sendOdd := by
  obtain ⟨a, q, hg⟩ := hb
  unfold splitVotes at hg
  rw [Table.get_put] at hg
  split_ifs at hg
  · cases hg
    exact Or.inr rfl
  · rw [Table.get_put] at hg
    split_ifs at hg
    · cases hg
      exact Or.inl rfl
    · cases hg

/-- With the weights 3 and 5 both blocks are listed. -/
theorem tally_faithful_split : votingWeight (weighing 3 5) splitVotes < 2 ^ 128 ∧
    ∀ b, Voted splitVotes b → ∃ w,
      (OrderDual.toDual w, b) ∈ (tally (weighing 3 5) .inPlace splitVotes).entries ∧
      w.toNat = votesFor (weighing 3 5) splitVotes b := by
  have hsum : votingWeight (weighing 3 5) splitVotes < 2 ^ 128 := by
    decide +kernel
  refine ⟨hsum, ((tally_faithful_iff .inPlace hsum).mpr ?_).1⟩
  have hne : votesFor (weighing 3 5) splitVotes send₁ ≠
      votesFor (weighing 3 5) splitVotes sendOdd := by
    decide +kernel
  intro b c hb hc he
  rcases voted_splitVotes hb with rfl | rfl
  · rcases voted_splitVotes hc with rfl | rfl
    · rfl
    · exact absurd he hne
  · rcases voted_splitVotes hc with rfl | rfl
    · exact absurd he.symm hne
    · rfl

/-- With the weights 5 and 5 one of the blocks is lost, whatever the order. -/
theorem equal_weights_lose_block : ¬ ∀ s it vs, votingWeight s vs < 2 ^ 128 →
    ∀ b, Voted vs b → ∃ w, (OrderDual.toDual w, b) ∈ (tally s it vs).entries ∧
      w.toNat = votesFor s vs b := by
  intro hall
  have hsum : votingWeight (weighing 5 5) splitVotes < 2 ^ 128 := by
    decide +kernel
  have hfirst : Voted splitVotes send₁ := ⟨firstAccount, 1, by decide +kernel⟩
  have hsecond : Voted splitVotes sendOdd := ⟨secondAccount, 1, by decide +kernel⟩
  have hone : (tally (weighing 5 5) .inPlace splitVotes).entries.length = 1 := by
    decide +kernel
  obtain ⟨w, hw, _⟩ := hall (weighing 5 5) .inPlace splitVotes hsum send₁ hfirst
  obtain ⟨x, hx, _⟩ := hall (weighing 5 5) .inPlace splitVotes hsum sendOdd hsecond
  obtain ⟨e, he⟩ := List.length_eq_one_iff.mp hone
  rw [he, List.mem_singleton] at hw hx
  have hsame : send₁ = sendOdd := congrArg Prod.snd (hw.trans hx.symm)
  exact absurd hsame (by decide)

end PaperNode.Tally
