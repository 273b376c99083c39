import PaperNode.BlockSetLedger
import PaperNode.VoteWeight

/-!
# Agreement on vote weight

Two nodes that accept the same blocks in different orders end with the same
blocks, so they agree on the account, frontier and pending tables and on every
cached representative. What is due from an account depends on the blocks only.
What is drawn from it depends on when each receipt came, so the two weights of
an account differ by what was drawn, modulo 2^128, and by nothing else.
-/
namespace PaperNode.WeightAgreement
open BoundedRecursion OrderedTable LinkedNodes TransitionRuns Blocks BlockStore LedgerQueries
open LedgerProcess BlockLattice ProcessSteps ChainInvariant IndexInvariant RollbackRuns LedgerRuns
open MoneyInvariant Representatives BlockSetLedger VoteWeight

variable {E : Env} {s s' s₀ s₁ s₂ : Store} {b c : Block} {bs bs₁ bs₂ : List Block}
  {d d₁ d₂ : Account → ℕ} {q : BlockHash} {R : Account}

noncomputable def due (E : Env) (B : Lattice) (R : Account) (bs : List Block) : ℕ :=
  (bs.map (dueBy E B R)).sum

/-- The state of a run that accepted `bs` and drew `d`. -/
structure Balanced (E : Env) (bs : List Block) (d : Account → ℕ) (s : Store) : Prop where
  reached : Reached (Initial E) (Processed E) s
  stored : ∀ h c, s.blockGet h = some c ↔
    (h = genesisHash E ∧ c = genesisBlock E) ∨ (c ∈ bs ∧ E.hash c = h)
  notGenesis : ∀ c ∈ bs, c ≠ genesisBlock E
  weights : ∀ R, ((weight s R).toNat + d R) % 2 ^ 128 =
    (delegated s R + inTransit s R + due E s.blockGet R bs) % 2 ^ 128

theorem genesis_balanced (h₀ : Initial E s) : Balanced E [] 0 s := by
  have hg := genesisInitialize_ok h₀
  constructor
  case reached => exact .start h₀
  case stored =>
    intro h c
    constructor
    · exact fun hc => Or.inl (hg.stored hc)
    · intro hc
      rcases hc with ⟨rfl, rfl⟩ | ⟨hc, _⟩
      · exact hg.self
      · cases hc
  case notGenesis => exact fun c hc => nomatch hc
  case weights =>
    intro R
    rw [genesis_weight hg]
    rfl

theorem dueBy_within (hs : Linked E s) (hf : Funded E s) (hw : Within s.blockGet s'.blockGet)
    (hc : ∀ q, c.sourceLink = some q → ∃ t, s.blockGet q = some (.sendBlock t)) (R : Account) :
    dueBy E s'.blockGet R c = dueBy E s.blockGet R c := by
  cases hq : c.sourceLink with
  | none => rw [dueBy_of_no_source hq, dueBy_of_no_source hq]
  | some q =>
      obtain ⟨t, ht⟩ := hc q hq
      obtain ⟨x, hx⟩ := hs.chains.exists_repBlock ht
      obtain ⟨y, hy, _⟩ := Nearest.target hx
      obtain ⟨v, hv⟩ := hf.sends q t ht
      unfold dueBy
      rw [hq]
      simp only [represents_iff hx hy, represents_iff (Nearest.within hw hx) (hw _ _ hy),
        sentAmount_eq hv, sentAmount_eq (hv.within hw)]

theorem Balanced.sources (hb : Balanced E bs d s) (hc : c ∈ bs)
    (hq : c.sourceLink = some q) : ∃ t, s.blockGet q = some (.sendBlock t) := by
  have hl := (reachable_sound (reached_reachable hb.reached)).linked
  have hst := (hb.stored _ c).mpr (Or.inr ⟨hc, rfl⟩)
  obtain ⟨t, ht, _⟩ := hl.chains.collects _ c q hst ⟨hb.notGenesis c hc, hq⟩
  exact ⟨t, ht⟩

theorem Balanced.stored_snoc {a : Account} {info : AccountInfo} (hb : Balanced E bs d s)
    (hl : Placed E s b a info s') (h : BlockHash) (c : Block) : s'.blockGet h = some c ↔
      (h = genesisHash E ∧ c = genesisBlock E) ∨ (c ∈ bs ++ [b] ∧ E.hash c = h) := by
  have hfresh := hl.fresh
  by_cases hh : h = E.hash b
  · subst hh
    rw [hl.stored]
    constructor
    · intro hc
      cases hc
      exact Or.inr ⟨by simp, rfl⟩
    · intro hc
      rcases hc with hg | ⟨hc, he⟩
      · rw [(hb.stored _ c).mpr (Or.inl hg)] at hfresh
        cases hfresh
      · rcases List.mem_append.mp hc with hc | hc
        · rw [(hb.stored _ c).mpr (Or.inr ⟨hc, he⟩)] at hfresh
          cases hfresh
        · rw [List.mem_singleton.mp hc]
  · rw [hl.other hh, hb.stored]
    constructor
    · intro hc
      exact hc.imp_right (fun hc => ⟨List.mem_append_left _ hc.1, hc.2⟩)
    · intro hc
      rcases hc with hg | ⟨hc, he⟩
      · exact Or.inl hg
      · rcases List.mem_append.mp hc with hc | hc
        · exact Or.inr ⟨hc, he⟩
        · rw [List.mem_singleton.mp hc] at he
          exact absurd he.symm hh

theorem Balanced.accepted (hE : Proper E) (hb : Balanced E bs d s) (hstep : Progressed E s b s') :
    Balanced E (bs ++ [b]) (d + drawnBy s b) s' := by
  have hr := reached_reachable hb.reached
  have hl := (reachable_sound hr).linked
  have hf := reachable_funded hE.hashed hr
  have ha := hstep.accepted
  have hweight := accepted_weight hE hl hf (reached_cached hb.reached) ha
  obtain ⟨a, info, hpl, hp⟩ := ha
  constructor
  case reached => exact hb.reached.next hstep.processed
  case stored => exact hb.stored_snoc hpl
  case notGenesis =>
    intro c hc
    rcases List.mem_append.mp hc with hc | hc
    · exact hb.notGenesis c hc
    · rw [List.mem_singleton.mp hc]
      exact (hl.fits hpl hp).ne_genesis hl.chains
  case weights =>
    intro R
    have hsource : ∀ q, b.sourceLink = some q → ∃ t, s.blockGet q = some (.sendBlock t) := by
      intro q hq
      obtain ⟨r, hr, _⟩ := posted_source hp hq
      obtain ⟨⟨t, ht, _⟩, _⟩ := hl.pending q r hr
      exact ⟨t, ht⟩
    have hdue : due E s'.blockGet R (bs ++ [b]) =
        due E s.blockGet R bs + dueBy E s.blockGet R b := by
      have hbs : bs.map (dueBy E s'.blockGet R) = bs.map (dueBy E s.blockGet R) :=
        List.map_congr_left (fun c hc => dueBy_within hl hf hpl.within
          (fun q hq => hb.sources hc hq) R)
      unfold due
      rw [List.map_append, List.sum_append, hbs, List.map_singleton, List.sum_singleton,
        dueBy_within hl hf hpl.within hsource]
    have hbefore := hb.weights R
    have hafter := hweight R
    unfold Accounted at hafter
    rw [hdue, Pi.add_apply]
    omega

theorem metered_balanced (hE : Proper E) (h₀ : Initial E s₀)
    (hm : Metered (Progressed E) drawnBy s₀ bs d s) : Balanced E bs d s :=
  hm.invariant (I := Balanced E) (genesis_balanced h₀)
    (fun _ _ _ _ _ hb hstep => hb.accepted hE hstep)

theorem delegated_agree (hB : s₁.blockGet = s₂.blockGet) (hsame : SameTables s₁ s₂)
    (hc₁ : Cached s₁) (hc₂ : Cached s₂) (R : Account) : delegated s₁ R = delegated s₂ R := by
  unfold delegated Table.total
  apply Table.fold_congr_map
  intro a
  have hacc := hsame.accounts a
  cases hi : s₁.accounts.get a with
  | none =>
      rw [hi, Option.map_none, eq_comm, Option.map_eq_none_iff] at hacc
      rw [hacc]
      rfl
  | some i =>
      rw [hi, Option.map_some, eq_comm, Option.map_eq_some_iff] at hacc
      obtain ⟨j, hj, he⟩ := hacc
      obtain ⟨hhead, hbal⟩ := Prod.ext_iff.mp he
      have hhead : j.head = i.head := hhead
      have hbal : j.balance = i.balance := hbal
      -- The cached block is the one the head determines.
      have hrep : j.repBlock = i.repBlock := by
        have hrj := hc₂ a j hj
        rw [hhead, ← hB] at hrj
        exact Nearest.unique hrj (hc₁ a i hi)
      rw [hj, Option.map_some, Option.map_some]
      unfold backing
      rw [hB, hrep, hbal]

theorem due_of_genesisAccount {E' : Env} (he : E'.genesisAccount = E.genesisAccount)
    (B : Lattice) (R : Account) (bs : List Block) : due E' B R bs = due E B R bs := by
  have hsent : ∀ q, Sent E' B q = Sent E B q := by
    intro q
    funext v
    exact propext ⟨fun h => h.of_genesisAccount he, fun h => h.of_genesisAccount he.symm⟩
  have hamount : ∀ q, sentAmount E' B q = sentAmount E B q := by
    intro q
    unfold sentAmount
    rw [hsent q]
  unfold due dueBy
  simp only [hamount]

theorem blocks_agree {E' : Env} (hperm : bs₁.Perm bs₂) (hb₁ : Balanced E bs₁ d₁ s₁)
    (hb₂ : Balanced E' bs₂ d₂ s₂) (hh : E'.hash = E.hash)
    (hg : genesisBlock E' = genesisBlock E) : s₁.blockGet = s₂.blockGet := by
  have hgh : genesisHash E' = genesisHash E := by
    change E'.hash (genesisBlock E') = E.hash (genesisBlock E)
    rw [hh, hg]
  funext h
  apply Option.ext
  intro c
  rw [hb₁.stored, hb₂.stored, hperm.mem_iff, hh, hg, hgh]

/-- Two nodes accept the same blocks in two orders, on clocks of their own and
with or without the weight assertion. They agree on the weight of every account
if and only if the receipts of the two runs drew the same total from every
account, modulo 2^128. -/
theorem weights_agree_iff (hE : Proper E) (clock : ℕ → Word64) (assertion : Bool) {s₀' : Store}
    (hperm : bs₁.Perm bs₂) (h₁ : Initial E s₀)
    (h₂ : Initial { E with now := clock, weightAssert := assertion } s₀')
    (hm₁ : Metered (Progressed E) drawnBy s₀ bs₁ d₁ s₁)
    (hm₂ : Metered (Progressed { E with now := clock, weightAssert := assertion }) drawnBy
      s₀' bs₂ d₂ s₂) :
    (∀ R, weight s₁ R = weight s₂ R) ↔ ∀ R, d₁ R % 2 ^ 128 = d₂ R % 2 ^ 128 := by
  have hE' := hE.configured clock assertion
  have hb₁ := metered_balanced hE h₁ hm₁
  have hb₂ := metered_balanced hE' h₂ hm₂
  have hB := blocks_agree hperm hb₁ hb₂ rfl rfl
  have hd₁ := reachable_describes hE (reached_reachable hb₁.reached)
  have hd₂ := (reachable_describes hE' (reached_reachable hb₂.reached)).of_genesisAccount
    (E := E) rfl
  rw [← hB] at hd₂
  have hsame := hd₁.unique hd₂
  have hdel := delegated_agree hB hsame (reached_cached hb₁.reached) (reached_cached hb₂.reached)
  have htr : ∀ R, inTransit s₁ R = inTransit s₂ R := by
    intro R
    unfold inTransit
    rw [hB, hsame.pending]
  have hdue : ∀ R, due E s₁.blockGet R bs₁ =
      due { E with now := clock, weightAssert := assertion } s₂.blockGet R bs₂ := by
    intro R
    have hsum : due E s₁.blockGet R bs₁ = due E s₁.blockGet R bs₂ :=
      (hperm.map (dueBy E s₁.blockGet R)).sum_eq
    rw [hsum, ← hB]
    apply due_of_genesisAccount
    rfl
  -- The right sides of the two balance sheets are the same number.
  have hsheet : ∀ R, ((weight s₁ R).toNat + d₁ R) % 2 ^ 128 =
      ((weight s₂ R).toNat + d₂ R) % 2 ^ 128 := by
    intro R
    rw [hb₁.weights, hb₂.weights, hdel, htr, hdue]
  constructor
  · intro hw R
    have hR := hsheet R
    rw [hw R] at hR
    omega
  · intro hdrawn R
    have hR := hsheet R
    have hdR := hdrawn R
    have hlt₁ := (weight s₁ R).isLt
    have hlt₂ := (weight s₂ R).isLt
    apply BitVec.eq_of_toNat_eq
    omega

theorem exists_both_orders : ∃ s₀ s₁ s₂, Initial smallNetwork s₀ ∧
    Run (Progressed smallNetwork) s₀ [send₁, change₁, open₁] s₁ ∧
    Run (Progressed smallNetwork) s₀ [send₁, open₁, change₁] s₂ ∧
    weight s₁ secondAccount = genesisAmount - 200 ∧
    weight s₂ secondAccount = genesisAmount - 100 := by
  have hrun₁ : accepts smallNetwork 20 [send₁, change₁, open₁] (fun s =>
      weight s secondAccount = genesisAmount - 200) = true := by
    decide +kernel
  have hrun₂ : accepts smallNetwork 20 [send₁, open₁, change₁] (fun s =>
      weight s secondAccount = genesisAmount - 100) = true := by
    decide +kernel
  obtain ⟨s₀, s₁, h₀, hs₁, ht₁⟩ := exists_of_accepts hrun₁
  obtain ⟨s₀', s₂, h₀', hs₂, ht₂⟩ := exists_of_accepts hrun₂
  cases Except.ok.inj (h₀.symm.trans h₀')
  exact ⟨s₀, s₁, s₂, h₀, hs₁, hs₂, of_decide_eq_true ht₁, of_decide_eq_true ht₂⟩

theorem orders_perm : [send₁, change₁, open₁].Perm [send₁, open₁, change₁] :=
  .cons send₁ (.swap open₁ change₁ [])

theorem weights_agree_iff_change_open : ∃ s₀ s₁ s₂ d₁ d₂,
    Metered (Progressed smallNetwork) drawnBy s₀ [send₁, change₁, open₁] d₁ s₁ ∧
    Metered (Progressed smallNetwork) drawnBy s₀ [send₁, open₁, change₁] d₂ s₂ ∧
    ((∀ R, weight s₁ R = weight s₂ R) ↔ ∀ R, d₁ R % 2 ^ 128 = d₂ R % 2 ^ 128) := by
  obtain ⟨s₀, s₁, s₂, h₀, hs₁, hs₂, _⟩ := exists_both_orders
  obtain ⟨d₁, hm₁⟩ := hs₁.metered drawnBy
  obtain ⟨d₂, hm₂⟩ := hs₂.metered drawnBy
  exact ⟨s₀, s₁, s₂, d₁, d₂, hm₁, hm₂, weights_agree_iff smallNetwork_proper
    smallNetwork.now smallNetwork.weightAssert orders_perm h₀ h₀ hm₁ hm₂⟩

/-- Whether the first account opens before or after the genesis account changes
its representative decides which account the weight is taken from. -/
theorem order_changes_weights : ¬ ∀ E s₀ bs₁ bs₂ s₁ s₂, Proper E → Initial E s₀ →
    List.Perm bs₁ bs₂ → Run (Progressed E) s₀ bs₁ s₁ → Run (Progressed E) s₀ bs₂ s₂ →
    ∀ R, weight s₁ R = weight s₂ R := by
  intro hall
  obtain ⟨s₀, s₁, s₂, h₀, hs₁, hs₂, hw₁, hw₂⟩ := exists_both_orders
  have hw := hall smallNetwork s₀ _ _ s₁ s₂ smallNetwork_proper h₀ orders_perm hs₁ hs₂
    secondAccount
  rw [hw₁, hw₂] at hw
  exact absurd hw (by decide)

end PaperNode.WeightAgreement
