import PaperNode.TransitionRuns
import PaperNode.RollbackRuns

/-!
# Runs of the ledger

A run starts from `genesis::initialize` on a new store and calls `process` and
`rollback` any number of times, with any blocks and hashes. A call that an
assertion aborts, or that does not return, ends the run before it.

The second half is a small network to try runs on: the test network's genesis
account, two further accounts, and a handful of blocks with their digests and
signatures. Any other digest is one and any other signature is refused.
-/
namespace PaperNode.LedgerRuns
open BoundedRecursion TransitionRuns Blocks BlockStore LedgerProcess LedgerRollback
open BlockLattice ProcessSteps ChainInvariant IndexInvariant RollbackRuns

inductive Action where
  | process (b : Block)
  | rollback (h : BlockHash)
  deriving DecidableEq, Repr

inductive Step (E : Env) (s : Store) : Action → Store → Prop
  | process {b : Block} {fuel : ℕ} {ret : ProcessReturn} {s' : Store} :
      process E fuel s b = .ok (ret, s') → Step E s (.process b) s'
  | rollback {h : BlockHash} {fuel : ℕ} {s' : Store} :
      rollback E fuel s h = .ok s' → Step E s (.rollback h) s'

def Initial (E : Env) (s : Store) : Prop := genesisInitialize E newStore = .ok s

def Reachable (E : Env) : Store → Prop := Reached (Initial E) (Step E)

variable {E : Env} {s s' : Store}

/-- A step accepts one block, removes blocks, or changes nothing. -/
theorem step_cases {x : Action} (hs : Sound E s) (h : Step E s x s') :
    s' = s ∨ (∃ b, x = .process b ∧ Accepted E s b s') ∨
      ∃ k, x = .rollback k ∧ Pops E (Above E s.blockGet k) s s' := by
  cases h with
  | process h =>
      rcases process_ok h with ⟨_, rfl⟩ | ⟨_, ha⟩
      · exact Or.inl rfl
      · exact Or.inr (Or.inl ⟨_, rfl, ha⟩)
  | rollback h => exact Or.inr (Or.inr ⟨_, rfl, (rollback_ok hs h).1⟩)

theorem Sound.step {x : Action} (hs : Sound E s) (h : Step E s x s') : Sound E s' := by
  rcases step_cases hs h with rfl | ⟨b, _, ha⟩ | ⟨k, _, hp⟩
  · exact hs
  · exact hs.accepted ha
  · exact hp.sound hs

theorem reachable_sound (h : Reachable E s) : Sound E s :=
  h.invariant (fun _ h₀ => Sound.genesis (genesisInitialize_ok h₀))
    (fun _ _ _ ht hstep => Sound.step ht hstep)

/-- A property of sound ledgers that accepting a block and removing one keep is kept by every
step. -/
theorem step_invariant {I : Store → Prop} {x : Action}
    (accepted : ∀ s b s', Sound E s → I s → Accepted E s b s' → I s')
    (popped : ∀ s k s', Sound E s → I s → RollbackSteps.Popped E s k s' → I s')
    (hs : Sound E s) (hI : I s) (h : Step E s x s') : I s' := by
  rcases step_cases hs h with rfl | ⟨b, _, ha⟩ | ⟨k, _, hp⟩
  · exact hI
  · exact accepted s b s' hs hI ha
  · have hboth : Sound E s' ∧ I s' :=
      hp.invariant (I := fun v => Sound E v ∧ I v) (fun v j w hv _ hpop =>
        ⟨hv.1.popped hpop, popped v j w hv.1 hv.2 hpop⟩) ⟨hs, hI⟩
    exact hboth.2

theorem reachable_invariant {I : Store → Prop} (genesis : ∀ s, Genesis E s → I s)
    (accepted : ∀ s b s', Sound E s → I s → Accepted E s b s' → I s')
    (popped : ∀ s k s', Sound E s → I s → RollbackSteps.Popped E s k s' → I s')
    (h : Reachable E s) : I s := by
  have both : Sound E s ∧ I s := by
    refine h.invariant (I := fun t => Sound E t ∧ I t) ?_ ?_
    · intro t h₀
      have hg := genesisInitialize_ok h₀
      exact ⟨Sound.genesis hg, genesis t hg⟩
    · intro t x u ht hstep
      exact ⟨Sound.step ht.1 hstep, step_invariant accepted popped ht.1 ht.2 hstep⟩
  exact both.2

theorem summed_accepted {b : Block} (h : Summed s) (ha : Accepted E s b s') : Summed s' := by
  obtain ⟨a, info, hl, _⟩ := ha
  exact hl.summed h

theorem summed_popped {k : BlockHash} (h : Summed s) (hp : RollbackSteps.Popped E s k s') :
    Summed s' := by
  obtain ⟨b, a, info, hr, _⟩ := hp
  exact hr.summed h

theorem summed_step {x : Action} (hs : Sound E s) (hsum : Summed s) (h : Step E s x s') :
    Summed s' :=
  step_invariant (fun _ _ _ _ ht ha => summed_accepted ht ha)
    (fun _ _ _ _ ht hp => summed_popped ht hp) hs hsum h

theorem reachable_summed (hs : Reachable E s) : Summed s :=
  reachable_invariant (fun _ hg => hg.summed) (fun _ _ _ _ ht ha => summed_accepted ht ha)
    (fun _ _ _ _ ht hp => summed_popped ht hp) hs

def perform (E : Env) (fuel : ℕ) (s : Store) : Action → Checked Store
  | .process b => do
      let (_, s') ← process E fuel s b
      return s'
  | .rollback h => rollback E fuel s h

def performAll (E : Env) (fuel : ℕ) (s : Store) : List Action → Checked Store
  | [] => .ok s
  | x :: xs => do
      let s ← perform E fuel s x
      performAll E fuel s xs

def execute (E : Env) (fuel : ℕ) (xs : List Action) : Checked Store := do
  let s ← genesisInitialize E newStore
  performAll E fuel s xs

theorem perform_step {fuel : ℕ} {x : Action} (h : perform E fuel s x = .ok s') :
    Step E s x s' := by
  cases x with
  | process b =>
      obtain ⟨⟨ret, t⟩, ht, h⟩ := bind_eq_ok.mp h
      cases h
      exact .process ht
  | rollback k => exact .rollback h

theorem performAll_run {fuel : ℕ} {xs : List Action} (h : performAll E fuel s xs = .ok s') :
    Run (Step E) s xs s' := by
  induction xs generalizing s with
  | nil =>
      cases h
      exact .nil
  | cons x xs ih =>
      obtain ⟨t, ht, h⟩ := bind_eq_ok.mp h
      exact .cons (perform_step ht) (ih h)

theorem execute_guarded {fuel : ℕ} {xs : List Action} {guard : Store → Action → Prop}
    (hall : ∀ t, ∀ x ∈ xs, guard t x) (h : execute E fuel xs = .ok s) :
    Reached (Initial E) (Guarded guard (Step E)) s := by
  obtain ⟨t, ht, h⟩ := bind_eq_ok.mp h
  exact ⟨t, xs, ht, (performAll_run h).guarded hall⟩

theorem execute_reachable {fuel : ℕ} {xs : List Action} (h : execute E fuel xs = .ok s) :
    Reachable E s := by
  obtain ⟨t, ht, h⟩ := bind_eq_ok.mp h
  exact ⟨t, xs, ht, performAll_run h⟩

def executes (E : Env) (fuel : ℕ) (xs : List Action) (test : Store → Bool) : Bool :=
  match execute E fuel xs with
  | .ok s => test s
  | .error _ => false

theorem exists_of_executes {fuel : ℕ} {xs : List Action} {test : Store → Bool}
    (h : executes E fuel xs test = true) : ∃ s, execute E fuel xs = .ok s ∧ test s = true := by
  unfold executes at h
  split at h
  · exact ⟨_, by assumption, h⟩
  · cases h

/-- A call of `process` that returns. -/
def Processed (E : Env) (s : Store) (b : Block) (s' : Store) : Prop :=
  ∃ fuel ret, process E fuel s b = .ok (ret, s')

/-- A call of `process` that returns `progress`. -/
def Progressed (E : Env) (s : Store) (b : Block) (s' : Store) : Prop :=
  ∃ fuel ret, process E fuel s b = .ok (ret, s') ∧ ret.code = .progress

theorem Processed.cases {b : Block} (h : Processed E s b s') : s' = s ∨ Accepted E s b s' := by
  obtain ⟨fuel, ret, h⟩ := h
  rcases process_ok h with ⟨_, he⟩ | ⟨_, ha⟩
  · exact Or.inl he
  · exact Or.inr ha

theorem Progressed.accepted {b : Block} (h : Progressed E s b s') : Accepted E s b s' := by
  obtain ⟨fuel, ret, h, hret⟩ := h
  rcases process_ok h with ⟨hne, _⟩ | ⟨_, ha⟩
  · exact absurd hret hne
  · exact ha

theorem Progressed.processed {b : Block} (h : Progressed E s b s') : Processed E s b s' := by
  obtain ⟨fuel, ret, h, _⟩ := h
  exact ⟨fuel, ret, h⟩

theorem progressed_reached {s₀ : Store} {bs : List Block} (h₀ : Initial E s₀)
    (h : Run (Progressed E) s₀ bs s) : Reached (Initial E) (Processed E) s :=
  ⟨s₀, bs, h₀, h.mono (fun _ _ _ hstep => hstep.processed)⟩

theorem reached_reachable (h : Reached (Initial E) (Processed E) s) : Reachable E s := by
  refine h.invariant (fun _ => Reached.start) ?_
  intro t b u ht hstep
  obtain ⟨fuel, ret, hstep⟩ := hstep
  exact ht.next (.process hstep)

/-- The ledger after the given blocks, if all of them make progress. -/
def acceptAll (E : Env) (fuel : ℕ) (s : Store) : List Block → Option Store
  | [] => some s
  | b :: bs =>
      match process E fuel s b with
      | .ok (⟨.progress, _⟩, s') => acceptAll E fuel s' bs
      | _ => none

def accepts (E : Env) (fuel : ℕ) (bs : List Block) (test : Store → Bool) : Bool :=
  match genesisInitialize E newStore with
  | .ok s => (acceptAll E fuel s bs).any test
  | .error _ => false

theorem acceptAll_cons {fuel : ℕ} {b : Block} {bs : List Block}
    (h : acceptAll E fuel s (b :: bs) = some s') :
    ∃ t, Progressed E s b t ∧ acceptAll E fuel t bs = some s' := by
  unfold acceptAll at h
  split at h
  · rename_i ht
    exact ⟨_, ⟨fuel, _, ht, rfl⟩, h⟩
  · cases h

theorem acceptAll_run {fuel : ℕ} {bs : List Block} (h : acceptAll E fuel s bs = some s') :
    Run (Progressed E) s bs s' := by
  induction bs generalizing s with
  | nil =>
      cases h
      exact .nil
  | cons b bs ih =>
      obtain ⟨t, ht, h⟩ := acceptAll_cons h
      exact .cons ht (ih h)

theorem exists_of_accepts {fuel : ℕ} {bs : List Block} {test : Store → Bool}
    (h : accepts E fuel bs test = true) :
    ∃ s₀ s, Initial E s₀ ∧ Run (Progressed E) s₀ bs s ∧ test s = true := by
  unfold accepts at h
  split at h
  · rename_i s₀ h₀
    cases hs : acceptAll E fuel s₀ bs with
    | none =>
        rw [hs] at h
        cases h
    | some s =>
        rw [hs] at h
        exact ⟨s₀, s, h₀, acceptAll_run hs, h⟩
  · cases h

section SmallNetwork

/-- `paper_test_account`. -/
def paperTestAccount : Account := 0xb0311ea55708d6a53c75cdbf88300259c6d018522fe3d4d0a242e431f9e8b6d0

/-- The public keys of the private keys one and two. -/
def firstAccount : Account := 0xc969ec348895a49e21824e10e6b829edea50ccc26a83ce8986a3b95d12576058

def secondAccount : Account := 0xddd378054e7f57e0b9352ffe176d76322cf10ca7f4945415fe50e84c60583dfb

def testGenesisHash : BlockHash := 0x4270d7f11c4b2b472f2854c5a59f2a7e84226ce9ed799de75744bd7d85fc9d9

/-- The genesis account sends 100 to the first account. -/
def send₁Hash : BlockHash := 0x4c0bd5ad6e18d7e398e610bc607e7d2912f425c5c9ddefea543369cea7f54aa4

def send₁ : Block := .sendBlock
  ⟨⟨testGenesisHash, firstAccount, LedgerQueries.genesisAmount - 100⟩,
    0x6eb053e330385d7ef164639530d4849539308ef151ab95aff73a566baca49ccb80efec21948a3cce48ed5fb27076277c5fbcdd5bfabf760d9421923060fe8a04, 0⟩

/-- The first account opens with that send, representing itself. -/
def open₁Hash : BlockHash := 0x145a5f065d0639a5c4c9ddaa9f83d3aabcaa236ea08715051e674fb22c8a7d0

def open₁ : Block := .openBlock
  ⟨⟨send₁Hash, firstAccount, firstAccount⟩,
    0xf2381a323284c10dfb3a230b3158728cc7c28ac06b212f13d23a60a18a2e3c57c12171c0bd37c4af3043239527f74cafd557110217ce8f5c688055ab9106660b, 0⟩

/-- The genesis account, after the send, names the second account as its
representative. -/
def change₁Hash : BlockHash := 0x6e2fa7a77c83bc8fdd77cb1192ab348631ef7d220408213a103dfea29d070658

def change₁ : Block := .changeBlock
  ⟨⟨send₁Hash, secondAccount⟩,
    0xca83ea1979428719266220a15d9751c1e7b2f15e77f397c366bb8bd61e758d1d70eb71443fffe89d4e93b20ed4a66d5e77ca000dcd6c6f6af121472843bf050e, 0⟩

/-- The genesis account changes again, to the first account. -/
def change₂Hash : BlockHash := 0xb66ca33fa9f9740f64e4ea9db0b3baf3541e2244216752db18fd6cc15dd65d47

def change₂ : Block := .changeBlock
  ⟨⟨change₁Hash, firstAccount⟩,
    0xfbcf0b84b4dd51a90d0169235532db3bc5e50dcf1846f3d8c41072922afada4d73ef7bbe048cd19e7c60d46bf2d8b36376d08ca18dcebeb4b53816bfa79b2808, 0⟩

/-- A second send of 100 to the first account, instead of the change. -/
def send₂Hash : BlockHash := 0x2bfebb406a31b306bbd4ab44be4ac7a0a1c1073c5462166f958d9e2fdb4e143d

def send₂ : Block := .sendBlock
  ⟨⟨send₁Hash, firstAccount, LedgerQueries.genesisAmount - 200⟩,
    0xd32b0b899a3cf18a8090a074fef1c9c842ae88fe604d684e43224d1bfaf307933eec7cca1a72c7abb86f68fe804ae73607d71bf25b6ce1427010264e44f8af08, 0⟩

def receive₁Hash : BlockHash := 0x59bd6c24dd94e0553b8906b4ee42edcf40010044c8ce97a2a72e93139e5c7b86

def receive₁ : Block := .receiveBlock
  ⟨⟨open₁Hash, send₂Hash⟩,
    0xdbfb3ee98bb24efb4ab46751781f88a11b09c78e26d703a271580d298c01e006ade7bb9123e93b259abc96ac4306581c8b92ee97af71303ac599457301f9b603, 0⟩

/-- The genesis account names account zero as its representative. -/
def change₀Hash : BlockHash := 0xe29ae098fb5c2a6b1bb14f5c29cdfe9e317239605a1bcf97f6df3fc8abacd730

def change₀ : Block := .changeBlock
  ⟨⟨testGenesisHash, 0⟩,
    0x9dbdb01342b0be9eb896c7848531f4d7bc98207d9f958622f594e0b01bf0938d8137e036888e5572ea96a5c1c1f00ef5f6413a870dc63f3d69a47ec5b840d60e, 0⟩

/-- A send to the account whose number is the genesis hash, and its open block. -/
def sendOddHash : BlockHash := 0x507b90cf154fa4f45c868dfeed1386dbd1d5c5462e92af13ad894e763490b4a9

def sendOdd : Block := .sendBlock
  ⟨⟨testGenesisHash, testGenesisHash, LedgerQueries.genesisAmount - 100⟩,
    0x4ad9910dd0860b4abcee555693c2984efc3177e16b1984f419d23c21bd474beca702295e45aadf8a160a14bf516f9788025ce13a3d49cd0a7fb64d3b27ff7400, 0⟩

def openOddHash : BlockHash := 0x7f3b43aea81bfea6722ac5467aae6adf653a326d01b23d48eeaa4d421a8f32be

def openOdd : Block := .openBlock ⟨⟨sendOddHash, firstAccount, testGenesisHash⟩, 1, 0⟩

def digests : List (Block × BlockHash) :=
  [(.openBlock ⟨⟨paperTestAccount, paperTestAccount, paperTestAccount⟩, 0, 0⟩, testGenesisHash),
    (send₁, send₁Hash), (open₁, open₁Hash), (change₁, change₁Hash),
    (change₂, change₂Hash), (send₂, send₂Hash), (receive₁, receive₁Hash), (change₀, change₀Hash),
    (sendOdd, sendOddHash), (openOdd, openOddHash)]

def signatures : List (Account × BlockHash × Signature) :=
  [(paperTestAccount, send₁Hash, send₁.signature), (firstAccount, open₁Hash, open₁.signature),
    (paperTestAccount, change₁Hash, change₁.signature),
    (paperTestAccount, change₂Hash, change₂.signature),
    (paperTestAccount, send₂Hash, send₂.signature),
    (firstAccount, receive₁Hash, receive₁.signature),
    (paperTestAccount, change₀Hash, change₀.signature),
    (paperTestAccount, sendOddHash, sendOdd.signature)]

def smallNetwork : Env where
  blake2b := fun bytes =>
    ((digests.find? (fun d => d.1.hashed = bytes)).map Prod.snd).getD 1
  validateMessage := fun a h sig => !decide ((a, h, sig) ∈ signatures)
  genesisAccount := paperTestAccount
  now := fun _ => 0
  weightAssert := true

theorem find_snd_mem {l : List (Block × BlockHash)} {P : BlockHash → Prop}
    {q : Block × BlockHash → Bool} (hl : ∀ d ∈ l, P d.2) (h₁ : P 1) :
    P (((l.find? q).map Prod.snd).getD 1) := by
  cases hf : l.find? q with
  | none => exact h₁
  | some d => exact hl d (List.mem_of_find?_eq_some hf)

theorem smallNetwork_proper : Proper smallNetwork where
  hash_ne_zero := fun b => find_snd_mem (P := fun h => h ≠ 0) (by decide +kernel) (by decide)
  hash_ne_genesis := fun b =>
    find_snd_mem (P := fun h => h ≠ paperTestAccount) (by decide +kernel) (by decide)
  zero_rejected := by
    intro h sig
    simp [smallNetwork, signatures, paperTestAccount, firstAccount]

theorem exists_opened : ∃ s, Reachable smallNetwork s ∧ s.blockGet send₁Hash = some send₁ ∧
    s.blockGet open₁Hash = some open₁ ∧
    (s.accounts.get firstAccount).map AccountInfo.head = some open₁Hash := by
  have hrun : executes smallNetwork 20 [.process send₁, .process open₁] (fun s =>
      decide (s.blockGet send₁Hash = some send₁) && decide (s.blockGet open₁Hash = some open₁) &&
        decide ((s.accounts.get firstAccount).map AccountInfo.head = some open₁Hash)) = true := by
    decide +kernel
  obtain ⟨s, hx, ht⟩ := exists_of_executes hrun
  simp only [Bool.and_eq_true, decide_eq_true_eq] at ht
  exact ⟨s, execute_reachable hx, ht.1.1, ht.1.2, ht.2⟩

end SmallNetwork

end PaperNode.LedgerRuns
