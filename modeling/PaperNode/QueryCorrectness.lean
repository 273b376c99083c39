import PaperNode.BlockLattice

/-!
# The visitors compute what the blocks mean

Each visitor of the ledger is compared with the relation it is meant to compute.
What a visitor returns is related to its argument, and on a lattice where the
relation holds the visitor returns from some budget on.

The account visitor trusts the source of a receive block to be a send to the
block's own account, and the balance visitor stops at hash zero and reads the
genesis amount off an unstored hash. These are the hypotheses below; the ledger
keeps them true.
-/
namespace PaperNode.QueryCorrectness
open BoundedRecursion LinkedNodes Blocks BlockStore LedgerQueries LedgerProcess BlockLattice

variable {E : Env} {B : Lattice} {h r : BlockHash} {a : Account} {fuel : ℕ}

def Addressed (B : Lattice) : Prop :=
  ∀ h c, B h = some (.receiveBlock c) →
    ∃ t, B c.hashables.source = some (.sendBlock t) ∧ Owner B h t.hashables.destination

def Keyed (E : Env) (B : Lattice) : Prop := ∀ h b, B h = some b → E.hash b = h

theorem account_ok (hB : Addressed B) (h₁ : account B fuel h = .ok a) :
    Owner B h a ∧ a ≠ 0 := by
  induction fuel generalizing h with
  | zero => exact absurd h₁ (exhaust_ne_ok a)
  | succ fuel ih =>
      unfold account at h₁
      obtain ⟨b, hb, h₁⟩ := bind_eq_ok.mp h₁
      have hb := demand_eq_ok.mp hb
      cases b with
      | sendBlock b | changeBlock b =>
          obtain ⟨ho, ha⟩ := ih h₁
          exact ⟨(owner_previous hb rfl).mpr ho, ha⟩
      | receiveBlock b =>
          obtain ⟨t, ht, ho⟩ := hB h b hb
          simp only [ht] at h₁
          split_ifs at h₁ with hd
          · exact ih h₁
          · cases h₁
            exact ⟨ho, hd⟩
      | openBlock b =>
          dsimp only at h₁
          split_ifs at h₁ with hd
          · exact ih h₁
          · cases h₁
            exact ⟨(owner_open hb).mpr rfl, hd⟩

theorem account_settles (hB : Addressed B) (ho : Owner B h a) (ha : a ≠ 0) :
    Settles (fun n => account B n h) a := by
  obtain ⟨r, o, hn, hr, rfl⟩ := ho
  induction hn with
  | here hb _ =>
      cases hb.symm.trans hr
      refine Settles.of_succ (fun n => ?_)
      simp only [account, hb, demand, ok_bind, if_neg ha]
      rfl
  | @back k p r b hb hopen hp hn ih =>
      cases b with
      | openBlock b => exact absurd rfl hopen
      | sendBlock b | changeBlock b =>
          cases hp
          refine (ih hr).succ (fun n => ?_)
          simp only [account, hb, demand, ok_bind]
      | receiveBlock b =>
          obtain ⟨t, ht, hd⟩ := hB k b hb
          have he : t.hashables.destination = o.hashables.account :=
            hd.unique ⟨r, o, .back hb hopen hp hn, hr, rfl⟩
          refine Settles.of_succ (fun n => ?_)
          simp only [account, hb, demand, ok_bind, ht, he, if_neg ha]
          rfl

theorem representativeCalculated_ok (hB : Keyed E B)
    (h₁ : representativeCalculated E B fuel h = .ok r) : RepBlock B h r := by
  induction fuel generalizing h with
  | zero => exact absurd h₁ (exhaust_ne_ok r)
  | succ fuel ih =>
      unfold representativeCalculated at h₁
      obtain ⟨b, hb, h₁⟩ := bind_eq_ok.mp h₁
      have hb := demand_eq_ok.mp hb
      cases b with
      | sendBlock b | receiveBlock b => exact .back hb (fun hn => hn) rfl (ih h₁)
      | openBlock b | changeBlock b =>
          cases h₁
          rw [hB h _ hb]
          exact .here hb trivial

theorem representativeCalculated_settles (hB : Keyed E B) (hr : RepBlock B h r) :
    Settles (fun n => representativeCalculated E B n h) r := by
  induction hr with
  | @here k b hb hn =>
      refine Settles.of_succ (fun n => ?_)
      have hk := hB k b hb
      cases b with
      | sendBlock b | receiveBlock b => exact hn.elim
      | openBlock b | changeBlock b =>
          simp only [representativeCalculated, hb, demand, ok_bind, hk]
          rfl
  | @back k p r b hb hn hp _ ih =>
      cases b with
      | sendBlock b | receiveBlock b =>
          cases hp
          refine ih.succ (fun n => ?_)
          simp only [representativeCalculated, hb, demand, ok_bind]
      | openBlock b | changeBlock b => exact absurd trivial hn

theorem representative_ok {s : Store} (hs : Keyed E s.blockGet)
    (h₁ : representative E s fuel h = .ok r) : RepBlock s.blockGet h r := by
  unfold representative at h₁
  obtain ⟨r', hr, h₁⟩ := bind_eq_ok.mp h₁
  obtain ⟨_, _, h₁⟩ := bind_eq_ok.mp h₁
  cases h₁
  exact representativeCalculated_ok hs hr

theorem representative_settles {s : Store} (hs : Keyed E s.blockGet)
    (hr : RepBlock s.blockGet h r) : Settles (fun n => representative E s n h) r := by
  refine (representativeCalculated_settles hs hr).bind (Settles.of_forall (fun _ => ?_))
  obtain ⟨b, hb, _⟩ := hr.target
  rw [require_of (Or.inr (Store.blockExists_iff.mpr ⟨b, hb⟩))]
  rfl

theorem account_steady (B : Lattice) (h : BlockHash) : Steady (fun n => account B n h) := by
  intro fuel
  induction fuel generalizing h with
  | zero => exact fun r hr => absurd hr (exhaust_ne_ok r)
  | succ fuel ih =>
      intro r hr
      dsimp only at hr ⊢
      rw [account] at hr ⊢
      refine bind_ok_mono (fun _ hb => hb) (fun b hr => ?_) hr
      cases b with
      | sendBlock b | changeBlock b => exact ih _ r hr
      | receiveBlock b =>
          dsimp only at hr ⊢
          split at hr
          · exact ite_ok_mono (ih _ r) (fun hr => hr) hr
          · exact hr
      | openBlock b => exact ite_ok_mono (ih _ r) (fun hr => hr) hr

/-- More budget never changes a balance or an amount. -/
theorem balance_amount_steady (E : Env) (B : Lattice) : ∀ fuel,
    (∀ h r v, balanceCompute E B fuel h r = .ok v → balanceCompute E B (fuel + 1) h r = .ok v) ∧
    (∀ h v, amount E B fuel h = .ok v → amount E B (fuel + 1) h = .ok v) ∧
    (∀ h v, fromSend E B fuel h = .ok v → fromSend E B (fuel + 1) h = .ok v) := by
  intro fuel
  induction fuel with
  | zero =>
      exact ⟨fun _ _ v hv => absurd hv (exhaust_ne_ok v), fun _ v hv => absurd hv (exhaust_ne_ok v),
        fun _ v hv => absurd hv (exhaust_ne_ok v)⟩
  | succ fuel ih =>
      obtain ⟨ihb, iha, ihf⟩ := ih
      refine ⟨?_, ?_, ?_⟩
      · intro h r v hv
        rw [balanceCompute] at hv ⊢
        split_ifs at hv ⊢ with h₀
        · exact hv
        · refine bind_ok_mono (fun _ hb => hb) (fun b hv => ?_) hv
          cases b with
          | sendBlock b | changeBlock b => exact ihb _ _ _ hv
          | receiveBlock b | openBlock b =>
              exact bind_ok_mono (iha _) (fun _ hv => ihb _ _ _ hv) hv
      · intro h v hv
        rw [amount] at hv ⊢
        cases hb : B h with
        | none =>
            rw [hb] at hv
            exact hv
        | some b =>
            rw [hb] at hv
            cases b with
            | sendBlock b => exact bind_ok_mono (ihb _ _) (fun _ hv => hv) hv
            | receiveBlock b | openBlock b => exact ihf _ _ hv
            | changeBlock b => exact hv
      · intro h v hv
        rw [fromSend] at hv ⊢
        exact bind_ok_mono (ihb _ _) (fun _ hv => bind_ok_mono (fun _ hb => hb)
          (fun _ hv => bind_ok_mono (ihb _ _) (fun _ hv => hv) hv) hv) hv

theorem balanceCompute_zero (E : Env) (B : Lattice) (r : Amount) :
    Settles (fun n => balanceCompute E B n 0 r) r :=
  Settles.of_succ (fun n => by rw [balanceCompute, if_pos rfl]; rfl)

theorem toNat_sub_of_le {t : Amount} {w : ℕ} (hle : t.toNat ≤ w) :
    BitVec.ofNat 128 w - t = BitVec.ofNat 128 (w - t.toNat) := by
  have he : BitVec.ofNat 128 (w - t.toNat) + t = BitVec.ofNat 128 w := by
    conv_lhs => rw [← BitVec.ofNat_toNat 128 t |>.trans (BitVec.setWidth_eq t)]
    rw [← BitVec.ofNat_add, BitVec.toNat_ofNat, Nat.mod_eq_of_lt t.isLt, Nat.sub_add_cancel hle]
  rw [← he, BitVec.add_sub_cancel]

/-- The hashes at which the balance visitor stops are not those of blocks. -/
structure Bottomed (E : Env) (B : Lattice) : Prop where
  zero : B 0 = none
  genesis : B E.genesisAccount = none

theorem Bottomed.ne_zero {b : Block} (hB : Bottomed E B) (hb : B h = some b) : h ≠ 0 := by
  intro h₀
  rw [h₀, hB.zero] at hb
  cases hb

theorem amount_send_settles {q : BlockHash} {t : SendBlock} {w : ℕ}
    (hq : B q = some (.sendBlock t)) (hle : t.hashables.balance.toNat ≤ w)
    (hw : Settles (fun n => balanceCompute E B n t.hashables.previous 0) (BitVec.ofNat 128 w)) :
    Settles (fun n => amount E B n q) (BitVec.ofNat 128 (w - t.hashables.balance.toNat)) := by
  have hsub : Settles (fun n => balanceCompute E B n t.hashables.previous 0 >>=
      fun v => (.ok (v - t.hashables.balance) : Checked Amount))
      (BitVec.ofNat 128 (w - t.hashables.balance.toNat)) :=
    hw.bind (Settles.of_forall (fun _ => by rw [toNat_sub_of_le hle]))
  refine hsub.succ (fun n => ?_)
  rw [amount, hq]
  rfl

theorem amount_genesis_settles (hB : Bottomed E B) :
    Settles (fun n => amount E B n E.genesisAccount) genesisAmount := by
  refine Settles.of_succ (fun n => ?_)
  rw [amount, hB.genesis]
  exact if_pos rfl

/-- The loop adds the amount of a source and goes on at `p`. -/
theorem add_source_settles {q p : BlockHash} {r x y : Amount}
    (hq : Settles (fun n => amount E B n q) x)
    (hp : Settles (fun n => balanceCompute E B n p (r + x)) y) :
    Settles (fun n => amount E B n q >>= fun source => balanceCompute E B n p (r + source)) y :=
  Settles.bind (g := fun n source => balanceCompute E B n p (r + source)) hq hp

theorem balanceCompute_settles (hB : Bottomed E B) {v : ℕ} (hv : Replay E B h v) (r : Amount) :
    Settles (fun n => balanceCompute E B n h r) (r + BitVec.ofNat 128 v) := by
  induction hv generalizing r with
  | genesis hb =>
      rw [BitVec.ofNat_toNat, BitVec.setWidth_eq]
      refine (add_source_settles (amount_genesis_settles hB) (balanceCompute_zero E B _)).succ
        (fun n => ?_)
      rw [balanceCompute, if_neg (hB.ne_zero hb), hb]
      simp only [demand, ok_bind, genesisBlock, genesisOpen]
  | opened hne hb ht _ hle ih =>
      have hw := ih 0#128
      rw [BitVec.zero_add] at hw
      refine (add_source_settles (amount_send_settles ht hle hw) (balanceCompute_zero E B _)).succ
        (fun n => ?_)
      rw [balanceCompute, if_neg (hB.ne_zero hb), hb]
      rfl
  | sent hb =>
      rw [BitVec.ofNat_toNat, BitVec.setWidth_eq]
      refine (balanceCompute_zero E B _).succ (fun n => ?_)
      rw [balanceCompute, if_neg (hB.ne_zero hb), hb]
      rfl
  | @received k c t v w hb _ ht _ hle ihv ihw =>
      have hw := ihw 0#128
      rw [BitVec.zero_add] at hw
      have hp := ihv (r + BitVec.ofNat 128 (w - t.hashables.balance.toNat))
      rw [BitVec.add_assoc, ← BitVec.ofNat_add, Nat.add_comm] at hp
      refine (add_source_settles (amount_send_settles ht hle hw) hp).succ (fun n => ?_)
      rw [balanceCompute, if_neg (hB.ne_zero hb), hb]
      rfl
  | changed hb _ ih =>
      refine (ih r).succ (fun n => ?_)
      rw [balanceCompute, if_neg (hB.ne_zero hb), hb]
      rfl

theorem balance_settles (hB : Bottomed E B) {v : ℕ} (hv : Replay E B h v) :
    Settles (fun n => balance E B n h) (BitVec.ofNat 128 v) := by
  have hs := balanceCompute_settles hB hv 0#128
  rwa [BitVec.zero_add] at hs

theorem amount_settles (hB : Bottomed E B) {d : ℕ} (hd : Sent E B h d) :
    Settles (fun n => amount E B n h) (BitVec.ofNat 128 d) := by
  obtain ⟨t, w, ht, hw, hle, rfl⟩ := hd
  exact amount_send_settles ht hle (balance_settles hB hw)

theorem balance_ok (hB : Bottomed E B) {v : ℕ} {x : Amount} (hv : Replay E B h v)
    (h₁ : balance E B fuel h = .ok x) : x = BitVec.ofNat 128 v :=
  (balance_settles hB hv).eq_of_steady
    (fun n => (balance_amount_steady E B n).1 h 0) h₁

theorem amount_ok (hB : Bottomed E B) {d : ℕ} {x : Amount} (hd : Sent E B h d)
    (h₁ : amount E B fuel h = .ok x) : x = BitVec.ofNat 128 d :=
  (amount_settles hB hd).eq_of_steady (fun n => (balance_amount_steady E B n).2.1 h) h₁

end PaperNode.QueryCorrectness
