import PaperNode.LedgerRuns

/-!
# Votes of representatives

A vote names a block and carries a sequence number; what is signed is the hash
of the block together with that number. For every account the votes object keeps
one pair, a sequence number and a block. A first vote writes both. A later vote
with a greater number replaces the block only, so the number stays that of the
first vote and votes between the two can be played again.
-/
namespace PaperNode.VoteRecords
open OrderedTable Words Blocks BlockStore LedgerRuns IndexInvariant

structure Vote where
  sequence : Word64
  block : Block
  account : Account
  signature : Signature
  deriving DecidableEq, Repr

/-- The bytes a vote signs: the block's hash and the sequence number, the latter
in the byte order of a little-endian machine. -/
def ballotBytes (h : BlockHash) (sequence : Word64) : List UInt8 :=
  bytes 32 h ++ (bytes 8 sequence).reverse

/-- `vote::hash`. Neither the signature nor the work of the block enters. -/
def Vote.hash (E : Env) (v : Vote) : BlockHash :=
  E.blake2b (ballotBytes (E.hash v.block) v.sequence)

def Vote.Signed (E : Env) (v : Vote) : Prop :=
  E.validateMessage v.account (v.hash E) v.signature = false

/-- The pairs are found by account; in which order they are visited is left to
those who visit them. -/
structure Votes where
  sequence : Word64
  id : BlockHash
  repVotes : Table Account (Word64 × Block)

/-- The constructor of `votes`. -/
def Votes.new (id : BlockHash) : Votes := ⟨1, id, ∅⟩

/-- `votes::vote`: whether the vote changed a block, and the votes after it. -/
def Votes.vote (E : Env) (vs : Votes) (v : Vote) : Bool × Votes :=
  if E.validateMessage v.account (v.hash E) v.signature then (false, vs)
  else
    match vs.repVotes.get v.account with
    | none => (true, { vs with repVotes := vs.repVotes.put v.account (v.sequence, v.block) })
    | some (sequence, block) =>
        if sequence.toNat < v.sequence.toNat then
          if block = v.block then (false, vs)
          else (true, { vs with repVotes := vs.repVotes.put v.account (sequence, v.block) })
        else (false, vs)

def Votes.voteAll (E : Env) (vs : Votes) (past : List Vote) : Votes :=
  past.foldl (fun vs v => (vs.vote E v).2) vs

variable {E : Env} {vs : Votes} {v : Vote} {past : List Vote} {a : Account} {b : Block}
  {q : Word64} {id : BlockHash}

theorem Votes.voteAll_snoc (E : Env) (vs : Votes) (past : List Vote) (v : Vote) :
    vs.voteAll E (past ++ [v]) = ((vs.voteAll E past).vote E v).2 := by
  simp [Votes.voteAll]

inductive Effect (E : Env) (vs : Votes) (v : Vote) : Bool × Votes → Prop
  | unsigned : ¬ v.Signed E → Effect E vs v (false, vs)
  | late {q : Word64} {b : Block} : vs.repVotes.get v.account = some (q, b) →
      v.sequence.toNat ≤ q.toNat → Effect E vs v (false, vs)
  | same {q : Word64} : vs.repVotes.get v.account = some (q, v.block) → Effect E vs v (false, vs)
  | first : v.Signed E → vs.repVotes.get v.account = none →
      Effect E vs v (true, { vs with repVotes := vs.repVotes.put v.account (v.sequence, v.block) })
  | changed {q : Word64} {b : Block} : v.Signed E → vs.repVotes.get v.account = some (q, b) →
      q.toNat < v.sequence.toNat → b ≠ v.block →
      Effect E vs v (true, { vs with repVotes := vs.repVotes.put v.account (q, v.block) })

theorem vote_effect (E : Env) (vs : Votes) (v : Vote) : Effect E vs v (vs.vote E v) := by
  unfold Votes.vote
  by_cases hv : E.validateMessage v.account (v.hash E) v.signature = true
  · rw [if_pos hv]
    apply Effect.unsigned
    simp [Vote.Signed, hv]
  · rw [if_neg hv]
    have hs : v.Signed E := by simpa [Vote.Signed] using hv
    cases hg : vs.repVotes.get v.account with
    | none => exact .first hs hg
    | some e =>
        obtain ⟨q, b⟩ := e
        dsimp only
        split_ifs with hlt hb
        · subst hb
          exact .same hg
        · exact .changed hs hg hlt hb
        · exact .late hg (by omega)

/-- The block is named by a signed vote of the account, and no signed vote of the
account has a greater sequence number. -/
def Newest (E : Env) (past : List Vote) (a : Account) (b : Block) : Prop :=
  ∃ v ∈ past, v.Signed E ∧ v.account = a ∧ v.block = b ∧
    ∀ w ∈ past, w.Signed E → w.account = a → w.sequence.toNat ≤ v.sequence.toNat

def recorded (E : Env) (id : BlockHash) (past : List Vote) (a : Account) : Option Block :=
  (((Votes.new id).voteAll E past).repVotes.get a).map Prod.snd

/-- After one more vote every recorded block is that of a newest vote, and a vote
no newer than a signed vote of its account has changed nothing. -/
structure NotReplayed (E : Env) (id : BlockHash) (past : List Vote) (v : Vote) : Prop where
  newest : ∀ a b, recorded E id (past ++ [v]) a = some b → Newest E (past ++ [v]) a b
  stale : (∃ w ∈ past, w.Signed E ∧ w.account = v.account ∧
    v.sequence.toNat ≤ w.sequence.toNat) → recorded E id (past ++ [v]) = recorded E id past

/-- The vote is newer than every signed vote of its account, or it cannot change
the block: it is unsigned, no newer than the first one, or names the block that is
recorded. -/
def InOrder (E : Env) (vs : Votes) (past : List Vote) (v : Vote) : Prop :=
  v.Signed E → ∀ q b, vs.repVotes.get v.account = some (q, b) → q.toNat < v.sequence.toNat →
    b ≠ v.block → ∀ w ∈ past, w.Signed E → w.account = v.account →
      w.sequence.toNat < v.sequence.toNat

/-- How the record of each account is related to the votes so far. -/
structure Tracks (E : Env) (past : List Vote) (vs : Votes) : Prop where
  unseen : ∀ a, vs.repVotes.get a = none → ∀ w ∈ past, w.Signed E → w.account ≠ a
  newest : ∀ a q b, vs.repVotes.get a = some (q, b) → Newest E past a b
  reached : ∀ a q b, vs.repVotes.get a = some (q, b) →
    ∃ w ∈ past, w.Signed E ∧ w.account = a ∧ w.sequence = q

theorem tracks_new (E : Env) (id : BlockHash) : Tracks E [] (Votes.new id) := by
  constructor
  · simp
  · simp [Votes.new]
  · simp [Votes.new]

theorem Newest.snoc (h : Newest E past a b)
    (hv : v.Signed E → v.account = a →
      b = v.block ∨ ∃ w ∈ past, w.Signed E ∧ w.account = a ∧
        v.sequence.toNat ≤ w.sequence.toNat) : Newest E (past ++ [v]) a b := by
  obtain ⟨u, hu, hs, ha, hb, hmax⟩ := h
  by_cases hnew : v.Signed E ∧ v.account = a ∧ u.sequence.toNat < v.sequence.toNat
  · -- The vote is newer, so it must name the same block and takes over.
    obtain ⟨hvs, hva, hlt⟩ := hnew
    refine ⟨v, by simp, hvs, hva, ?_, ?_⟩
    · rcases hv hvs hva with h | ⟨w, hw, hws, hwa, hle⟩
      · exact h.symm
      · have := hmax w hw hws hwa
        omega
    · refine List.forall_mem_append.mpr ⟨?_, List.forall_mem_singleton.mpr (fun _ _ => le_rfl)⟩
      intro w hw hws hwa
      exact (hmax w hw hws hwa).trans hlt.le
  · refine ⟨u, by simp [hu], hs, ha, hb, ?_⟩
    refine List.forall_mem_append.mpr ⟨hmax, List.forall_mem_singleton.mpr ?_⟩
    intro hvs hva
    by_contra hlt
    exact hnew ⟨hvs, hva, by omega⟩

theorem newest_self (hs : v.Signed E)
    (hmax : ∀ w ∈ past, w.Signed E → w.account = v.account →
      w.sequence.toNat ≤ v.sequence.toNat) : Newest E (past ++ [v]) v.account v.block := by
  refine ⟨v, by simp, hs, rfl, rfl, ?_⟩
  exact List.forall_mem_append.mpr ⟨hmax, List.forall_mem_singleton.mpr (fun _ _ => le_rfl)⟩

theorem Tracks.kept (ht : Tracks E past vs)
    (hv : v.Signed E → ∃ q b, vs.repVotes.get v.account = some (q, b) ∧
      (v.sequence.toNat ≤ q.toNat ∨ b = v.block)) : Tracks E (past ++ [v]) vs := by
  constructor
  case unseen =>
    intro a ha w hw hws
    rcases List.mem_append.mp hw with hw | hw
    · exact ht.unseen a ha w hw hws
    · simp only [List.mem_singleton] at hw
      subst hw
      obtain ⟨q, b, hg, _⟩ := hv hws
      intro hwa
      rw [hwa, ha] at hg
      cases hg
  case newest =>
    intro a q b hg
    refine (ht.newest a q b hg).snoc (fun hvs hva => ?_)
    obtain ⟨q', b', hg', hold⟩ := hv hvs
    rw [hva, hg] at hg'
    cases hg'
    rcases hold with hle | hb
    · obtain ⟨w, hw, hws, hwa, rfl⟩ := ht.reached a _ _ hg
      exact Or.inr ⟨w, hw, hws, hwa, hle⟩
    · exact Or.inl hb
  case reached =>
    intro a q b hg
    obtain ⟨w, hw, hrest⟩ := ht.reached a q b hg
    exact ⟨w, by simp [hw], hrest⟩

theorem Tracks.written (ht : Tracks E past vs) (hs : v.Signed E)
    (hq : q = v.sequence ∨ ∃ b, vs.repVotes.get v.account = some (q, b))
    (hmax : ∀ w ∈ past, w.Signed E → w.account = v.account →
      w.sequence.toNat ≤ v.sequence.toNat) :
    Tracks E (past ++ [v])
      { vs with repVotes := vs.repVotes.put v.account (q, v.block) } := by
  constructor
  case unseen =>
    intro a ha w hw hws
    dsimp only at ha
    rw [Table.get_put] at ha
    split_ifs at ha with hav
    rcases List.mem_append.mp hw with hw | hw
    · exact ht.unseen a ha w hw hws
    · simp only [List.mem_singleton] at hw
      subst hw
      exact fun h => hav h.symm
  case newest =>
    intro a q' b hg
    dsimp only at hg
    rw [Table.get_put] at hg
    split_ifs at hg with hav
    · cases hg
      subst hav
      exact newest_self hs hmax
    · refine (ht.newest a q' b hg).snoc (fun _ hva => absurd hva.symm hav)
  case reached =>
    intro a q' b hg
    dsimp only at hg
    rw [Table.get_put] at hg
    split_ifs at hg with hav
    · cases hg
      subst hav
      rcases hq with rfl | ⟨b', hg'⟩
      · exact ⟨v, by simp, hs, rfl, rfl⟩
      · obtain ⟨w, hw, hrest⟩ := ht.reached _ _ _ hg'
        exact ⟨w, by simp [hw], hrest⟩
    · obtain ⟨w, hw, hrest⟩ := ht.reached a q' b hg
      exact ⟨w, by simp [hw], hrest⟩

theorem Tracks.vote (ht : Tracks E past vs) (ho : InOrder E vs past v) :
    Tracks E (past ++ [v]) (vs.vote E v).2 := by
  have hEff := vote_effect E vs v
  generalize vs.vote E v = r at hEff
  cases hEff with
  | unsigned hn => exact ht.kept (fun hs => absurd hs hn)
  | late hg hle => exact ht.kept (fun _ => ⟨_, _, hg, Or.inl hle⟩)
  | same hg => exact ht.kept (fun _ => ⟨_, _, hg, Or.inr rfl⟩)
  | first hs hg =>
      apply ht.written hs (Or.inl rfl)
      intro w hw hws hwa
      exact absurd hwa (ht.unseen _ hg w hw hws)
  | changed hs hg hlt hb =>
      apply ht.written hs (Or.inr ⟨_, hg⟩)
      intro w hw hws hwa
      have := ho hs _ _ hg hlt hb w hw hws hwa
      omega

theorem Tracks.stale (ht : Tracks E past vs) (ho : InOrder E vs past v)
    (hw : ∃ w ∈ past, w.Signed E ∧ w.account = v.account ∧
      v.sequence.toNat ≤ w.sequence.toNat) : (vs.vote E v).2 = vs := by
  obtain ⟨w, hw, hws, hwa, hle⟩ := hw
  have hEff := vote_effect E vs v
  generalize vs.vote E v = r at hEff
  cases hEff with
  | unsigned | late | same => rfl
  | first _ hg => exact absurd hwa (ht.unseen _ hg w hw hws)
  | changed hs hg hlt hb =>
      have := ho hs _ _ hg hlt hb w hw hws hwa
      omega

theorem voteAll_tracks (E : Env) (id : BlockHash) (past : List Vote)
    (ho : ∀ before v, before ++ [v] <+: past →
      InOrder E ((Votes.new id).voteAll E before) before v) :
    Tracks E past ((Votes.new id).voteAll E past) := by
  induction past using List.reverseRecOn with
  | nil => exact tracks_new E id
  | append_singleton past v ih =>
      rw [Votes.voteAll_snoc]
      apply Tracks.vote
      · exact ih (fun before w hb => ho before w (hb.trans (List.prefix_append _ _)))
      · exact ho past v (List.prefix_rfl)

/-- Old votes are refused throughout a sequence of votes exactly when every vote
of the sequence comes in order. -/
theorem not_replayed_iff_in_order (E : Env) (id : BlockHash) (votes : List Vote) :
    (∀ past v, past ++ [v] <+: votes → NotReplayed E id past v) ↔
      ∀ past v, past ++ [v] <+: votes →
        InOrder E ((Votes.new id).voteAll E past) past v := by
  constructor
  · intro hall past v hp hs q b hg hlt hb w hw hws hwa
    by_contra hle
    have hsame := congrFun ((hall past v hp).stale ⟨w, hw, hws, hwa, by omega⟩) v.account
    have hEff := vote_effect E ((Votes.new id).voteAll E past) v
    unfold recorded at hsame
    rw [Votes.voteAll_snoc, hg] at hsame
    generalize ((Votes.new id).voteAll E past).vote E v = r at hEff hsame
    cases hEff with
    | unsigned hn => exact hn hs
    | late hg' hle' =>
        cases hg.symm.trans hg'
        omega
    | same hg' =>
        cases hg.symm.trans hg'
        exact hb rfl
    | first _ hg' => cases hg.symm.trans hg'
    | changed hs' hg' hlt' hb' =>
        dsimp only at hsame
        rw [Table.get_put_self] at hsame
        simp only [Option.map_some, Option.some.injEq] at hsame
        exact hb hsame.symm
  · intro ho past v hp
    have htail : past <+: votes := (List.prefix_append past [v]).trans hp
    have ht := voteAll_tracks E id past (fun before w hb => ho before w (hb.trans htail))
    constructor
    · intro a b hr
      have ht' := ht.vote (ho past v hp)
      rw [← Votes.voteAll_snoc] at ht'
      obtain ⟨⟨q, c⟩, hg, rfl⟩ := Option.map_eq_some_iff.mp hr
      exact ht'.newest a q c hg
    · intro hw
      funext a
      unfold recorded
      rw [Votes.voteAll_snoc, ht.stale (ho past v hp) hw]

section Ballots

/-- A network given by tables of digests and of good signatures, with the genesis
account of the test network. -/
def tableNetwork (digests : List (List UInt8 × BlockHash))
    (signatures : List (Account × BlockHash × Signature)) : Env where
  blake2b := fun bytes => ((digests.find? (fun d => d.1 = bytes)).map Prod.snd).getD 1
  validateMessage := fun a h sig => !signatures.contains (a, h, sig)
  genesisAccount := paperTestAccount
  now := fun _ => 0
  weightAssert := true

theorem tableNetwork_proper {digests : List (List UInt8 × BlockHash)}
    {signatures : List (Account × BlockHash × Signature)}
    (hd : digests.all (fun d => d.2 ≠ 0 ∧ d.2 ≠ paperTestAccount) = true)
    (hs : signatures.all (fun t => t.1 ≠ 0) = true) :
    Proper (tableNetwork digests signatures) := by
  have digest : ∀ bytes, (tableNetwork digests signatures).blake2b bytes ≠ 0 ∧
      (tableNetwork digests signatures).blake2b bytes ≠ paperTestAccount := by
    intro bytes
    unfold tableNetwork
    dsimp only
    cases hf : digests.find? (fun d => d.1 = bytes) with
    | none => decide
    | some d =>
        exact of_decide_eq_true (List.all_eq_true.mp hd d (List.mem_of_find?_eq_some hf))
  constructor
  · exact fun b => (digest b.hashed).1
  · exact fun b => (digest b.hashed).2
  · intro h sig
    unfold tableNetwork
    rw [Bool.not_eq_true', ← Bool.not_eq_true, List.contains_iff_mem]
    exact fun hm => of_decide_eq_true (List.all_eq_true.mp hs _ hm) rfl

/-- The genesis account votes for its send with numbers one and two, and for the
send to the odd account with number three. -/
def ballot₁ : Vote := ⟨1, send₁, paperTestAccount,
  0xed7799f2e449ec634a4e20618445f70b2245041e7e05ee237009aac09226a0723c1c7da9d6137c0dc6876536d7a5bc137c09f39901cb9de1ffd60f269fe91901⟩

def ballot₂ : Vote := ⟨2, send₁, paperTestAccount,
  0xc383c9188b352a7dcc54256b80417d3d94ef889b808046ab4cac3fffbecbdea66885575efe7136df00bdc8888c1882d0c51662fc34e097e5b6262ed60f5d5c02⟩

def ballot₃ : Vote := ⟨3, sendOdd, paperTestAccount,
  0x859a6ace8488f56752adc8b8110b27d254ebfcfbbf3a834ad87b5aa672738ee3701c4bce121b1cba27d389119e69846b4856e4349d2694e037f47e486b21c403⟩

def firstBallot : Vote := ⟨1, send₁, firstAccount,
  0x2b4da27257f37372c11569c7ae7c64e72c512512c38f106252148aabc0d2cdb7dce388a849678522a5450a336bc080e59e06f29a44fbaa6b795df885f461b307⟩

def oddBallot : Vote := ⟨1, sendOdd, firstAccount,
  0x62962cab38d2b64d6e8434098b847b3a0278d76f629f8cd0dda2f1dc615cac5ec7273a4ea42ecf5fa6854cb2945198563fa36ed4667f607bd7b50af50f086a01⟩

/-- A vote with number zero, as an election casts for the block it starts on. -/
def openingBallot : Vote := ⟨0, send₁, secondAccount,
  0x95b51e89f976f5b490d5b637cfc304509d928e4b966b5a6647b48c9393886803475ef3a530bd8f53df0fb11f205f5daf89b778c5138ae43b511dd99f2051f106⟩

def ballotDigests : List (List UInt8 × BlockHash) :=
  [(ballotBytes send₁Hash 0, 0x9b21e73aeeba388fd35aa9abc4f6a16366f80e2933a4650338f2bb6a8af58938),
    (ballotBytes send₁Hash 1, 0x5ac5880e75a57050b504747088de479552cc31f4d9e5c5e721078546e187d8ca),
    (ballotBytes send₁Hash 2, 0x9f94f7cd8cfd0c4606bed2f1001fb7a75a2ffb1f4240f409cd890b21838a2852),
    (ballotBytes sendOddHash 1, 0xe2c8264cda720db079b1202b287fd67824e8af7b2ddcb182c3e8cda2c7a9d02f),
    (ballotBytes sendOddHash 3, 0x690038396409a698c08ddcdcfcdfb7bd9761fe8633ac4c85734d18440f69428e)]

def ballotSignatures : List (Account × BlockHash × Signature) :=
  [(secondAccount, 0x9b21e73aeeba388fd35aa9abc4f6a16366f80e2933a4650338f2bb6a8af58938,
      openingBallot.signature),
    (paperTestAccount, 0x5ac5880e75a57050b504747088de479552cc31f4d9e5c5e721078546e187d8ca,
      ballot₁.signature),
    (firstAccount, 0x5ac5880e75a57050b504747088de479552cc31f4d9e5c5e721078546e187d8ca,
      firstBallot.signature),
    (paperTestAccount, 0x9f94f7cd8cfd0c4606bed2f1001fb7a75a2ffb1f4240f409cd890b21838a2852,
      ballot₂.signature),
    (firstAccount, 0xe2c8264cda720db079b1202b287fd67824e8af7b2ddcb182c3e8cda2c7a9d02f,
      oddBallot.signature),
    (paperTestAccount, 0x690038396409a698c08ddcdcfcdfb7bd9761fe8633ac4c85734d18440f69428e,
      ballot₃.signature)]

def ballotNetwork : Env :=
  tableNetwork (digests.map (fun d => (d.1.hashed, d.2)) ++ ballotDigests)
    (signatures ++ ballotSignatures)

theorem ballotNetwork_proper : Proper ballotNetwork :=
  tableNetwork_proper (by decide +kernel) (by decide +kernel)

/-- Votes one and three are followed by vote two, which brings the first block
back. -/
theorem old_vote_replayed : ¬ ∀ E id past v, NotReplayed E id past v := by
  intro hall
  have hn := (hall ballotNetwork testGenesisHash [ballot₁, ballot₃] ballot₂).stale
    ⟨ballot₃, by simp, by unfold Vote.Signed; decide +kernel, rfl, by decide⟩
  have hbefore : recorded ballotNetwork testGenesisHash [ballot₁, ballot₃] paperTestAccount =
      some sendOdd := by
    decide +kernel
  have hafter : recorded ballotNetwork testGenesisHash ([ballot₁, ballot₃] ++ [ballot₂])
      paperTestAccount = some send₁ := by
    decide +kernel
  rw [hn, hbefore] at hafter
  revert hafter
  decide +kernel

end Ballots

end PaperNode.VoteRecords
