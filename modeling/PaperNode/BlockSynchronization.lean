import PaperNode.GapCache

/-!
# Handing on blocks after their dependencies

`block_synchronization` keeps a stack of hashes. Before the block on top is handed on, its
previous block and its source have to be synchronized: one that is not is put on top and
comes first. What it means to be synchronized, where blocks are retrieved from and where
they are handed to is left to the classes derived from it.
-/
namespace PaperNode.BlockSynchronization
open BoundedRecursion Blocks GapCache
open BlockLattice (Names)

/-- The assertions of the function blocks are handed to. The top of an empty stack is undefined. -/
inductive SynchronizationAssertion where
  | receive (site : ReceiveAssertion)
  | emptyStack
  deriving DecidableEq, Repr

/-- The virtual functions of `block_synchronization`, over the tables they read and write. -/
structure Synchronization (σ : Type) where
  synchronized : σ → BlockHash → Bool × σ
  retrieve : σ → BlockHash → Option Block
  target : ℕ → σ → Block → Check SynchronizationAssertion σ

/-- The tables together with the stack `blocks`, its top first. -/
structure Stacked (σ : Type) where
  data : σ
  blocks : List BlockHash

variable {σ : Type}

/-- `add_dependency_visitor::add_dependency`. -/
def Synchronization.addHash (v : Synchronization σ) (st : Stacked σ) (hash : BlockHash) :
    Bool × Stacked σ :=
  let (known, data) := v.synchronized st.data hash
  if known then (true, ⟨data, st.blocks⟩) else (false, ⟨data, hash :: st.blocks⟩)

/-- `block_synchronization::add_dependency`. -/
def Synchronization.addDependency (v : Synchronization σ) (st : Stacked σ) :
    Block → Bool × Stacked σ
  | .sendBlock block => v.addHash st block.hashables.previous
  | .receiveBlock block =>
      let (result, st) := v.addHash st block.hashables.previous
      if result then v.addHash st block.hashables.source else (false, st)
  | .openBlock block => v.addHash st block.hashables.source
  | .changeBlock block => v.addHash st block.hashables.previous

/-- `block_synchronization::fill_dependencies`. The result is whether there was an error. -/
def Synchronization.fillDependencies (v : Synchronization σ) : ℕ → Stacked σ →
    Check SynchronizationAssertion (Bool × Stacked σ)
  | 0, _ => exhaust
  | fuel + 1, st => do
      let top ← demand st.blocks.head? .emptyStack
      match v.retrieve st.data top with
      | some block =>
          let (done, st) := v.addDependency st block
          if done then return (false, st) else v.fillDependencies fuel st
      | none => return (true, st)

/-- `block_synchronization::synchronize_one`. -/
def Synchronization.synchronizeOne (v : Synchronization σ) (fuel : ℕ) (st : Stacked σ) :
    Check SynchronizationAssertion (Bool × Stacked σ) := do
  let (result, st) ← v.fillDependencies fuel st
  if result then return (true, st)
  else do
    let top ← demand st.blocks.head? .emptyStack
    match v.retrieve st.data top with
    | some block => do
        let data ← v.target fuel st.data block
        return (false, ⟨data, st.blocks.tail⟩)
    | none => return (true, ⟨st.data, st.blocks.tail⟩)

/-- The loop of `block_synchronization::synchronize`. -/
def Synchronization.synchronizeAll (v : Synchronization σ) : ℕ → Stacked σ →
    Check SynchronizationAssertion (Bool × Stacked σ)
  | 0, _ => exhaust
  | fuel + 1, st =>
      if st.blocks = [] then return (false, st)
      else do
        let (result, st) ← v.synchronizeOne fuel st
        if result then return (true, st) else v.synchronizeAll fuel st

/-- `block_synchronization::synchronize`. -/
def Synchronization.synchronize (v : Synchronization σ) (fuel : ℕ) (st : Stacked σ)
    (hash : BlockHash) : Check SynchronizationAssertion (Bool × Stacked σ) :=
  v.synchronizeAll fuel ⟨st.data, hash :: st.blocks⟩

/-- What `synchronized` answers, and what asking for a block that is not does to the tables. -/
def Asks (v : Synchronization σ) (test : σ → BlockHash → Bool) (mark : σ → BlockHash → σ) : Prop :=
  ∀ d h, v.synchronized d h = if test d h then (true, d) else (false, mark d h)

/-- How `fill_dependencies` ends: at a block that cannot be retrieved, or at one that names
nothing that is not synchronized. -/
inductive Filled (v : Synchronization σ) (test : σ → BlockHash → Bool) : Bool × Stacked σ → Prop
  | missing {d : σ} {h : BlockHash} {ks : List BlockHash} :
      v.retrieve d h = none → Filled v test (true, ⟨d, h :: ks⟩)
  | ready {d : σ} {h : BlockHash} {ks : List BlockHash} {b : Block} :
      v.retrieve d h = some b → (∀ p, Names b p → test d p = true) →
      Filled v test (false, ⟨d, h :: ks⟩)

theorem lt_of_lt_top {rank : BlockHash → ℕ} {h p : BlockHash} {ks : List BlockHash}
    (hordered : (h :: ks).Pairwise (fun h k => rank h < rank k)) (hlt : rank p < rank h) :
    ∀ k ∈ h :: ks, rank p < rank k := by
  intro k hk
  rcases List.mem_cons.mp hk with rfl | hk
  · exact hlt
  · exact hlt.trans ((List.pairwise_cons.mp hordered).1 k hk)

section Dependencies
variable {v : Synchronization σ} {test : σ → BlockHash → Bool} {mark : σ → BlockHash → σ}

/-- Either every dependency is synchronized and the stack is left as it is, or one that is not
is put on top. -/
theorem addDependency_cases (hv : Asks v test mark) (st : Stacked σ) (b : Block) :
    (v.addDependency st b = (true, st) ∧ ∀ p, Names b p → test st.data p = true) ∨
    ∃ p, v.addDependency st b = (false, ⟨mark st.data p, p :: st.blocks⟩) ∧
      Names b p ∧ test st.data p = false := by
  have single : ∀ h, (v.addHash st h = (true, st) ∧ test st.data h = true) ∨
      v.addHash st h = (false, ⟨mark st.data h, h :: st.blocks⟩) ∧ test st.data h = false := by
    intro h
    rw [Synchronization.addHash, hv]
    cases ht : test st.data h
    · exact Or.inr ⟨rfl, rfl⟩
    · exact Or.inl ⟨rfl, rfl⟩
  cases b with
  | sendBlock t | changeBlock t =>
      rcases single t.hashables.previous with ⟨heq, ht⟩ | ⟨heq, ht⟩
      · refine Or.inl ⟨heq, ?_⟩
        rintro p (hp | hp) <;> cases hp
        exact ht
      · exact Or.inr ⟨_, heq, Or.inl rfl, ht⟩
  | openBlock o =>
      rcases single o.hashables.source with ⟨heq, ht⟩ | ⟨heq, ht⟩
      · refine Or.inl ⟨heq, ?_⟩
        rintro p (hp | hp) <;> cases hp
        exact ht
      · exact Or.inr ⟨_, heq, Or.inr rfl, ht⟩
  | receiveBlock c =>
      rcases single c.hashables.previous with ⟨heq, ht⟩ | ⟨heq, ht⟩
      · rcases single c.hashables.source with ⟨heq', ht'⟩ | ⟨heq', ht'⟩
        · refine Or.inl ⟨?_, ?_⟩
          · rw [Synchronization.addDependency, heq]
            exact heq'
          · rintro p (hp | hp) <;> cases hp
            · exact ht
            · exact ht'
        · refine Or.inr ⟨_, ?_, Or.inr rfl, ht'⟩
          rw [Synchronization.addDependency, heq]
          exact heq'
      · refine Or.inr ⟨_, ?_, Or.inl rfl, ht⟩
        rw [Synchronization.addDependency, heq]
        rfl

theorem fillDependencies_succ {d : σ} {h : BlockHash} {ks : List BlockHash} {b : Block}
    (hb : v.retrieve d h = some b) (n : ℕ) :
    v.fillDependencies (n + 1) ⟨d, h :: ks⟩ =
      (let (done, st) := v.addDependency ⟨d, h :: ks⟩ b
      if done then return (false, st) else v.fillDependencies n st) := by
  rw [Synchronization.fillDependencies]
  simp only [List.head?_cons, demand, ok_bind, hb]

theorem fill_ready {d : σ} {h : BlockHash} {ks : List BlockHash} {b : Block}
    (hb : v.retrieve d h = some b) (hadd : v.addDependency ⟨d, h :: ks⟩ b = (true, ⟨d, h :: ks⟩)) :
    Settles (fun n => v.fillDependencies n ⟨d, h :: ks⟩) (false, ⟨d, h :: ks⟩) := by
  refine Settles.of_succ (fun n => ?_)
  rw [fillDependencies_succ hb, hadd]
  rfl

/-- The rule for `fill_dependencies`: what every push keeps, with a measure that every push
lowers, holds when it ends, and it does end. -/
theorem fill_settles (hv : Asks v test mark) (I : Stacked σ → Prop) (μ : Stacked σ → ℕ)
    (push : ∀ {d h ks b p}, I ⟨d, h :: ks⟩ → v.retrieve d h = some b → Names b p →
      test d p = false → I ⟨mark d p, p :: h :: ks⟩ ∧ μ ⟨mark d p, p :: h :: ks⟩ < μ ⟨d, h :: ks⟩)
    {d : σ} {h : BlockHash} {ks : List BlockHash} (hI : I ⟨d, h :: ks⟩) :
    ∃ r, Settles (fun n => v.fillDependencies n ⟨d, h :: ks⟩) r ∧ I r.2 ∧ Filled v test r := by
  induction hn : μ ⟨d, h :: ks⟩ using Nat.strong_induction_on generalizing d h ks with
  | _ n ih =>
      cases hb : v.retrieve d h with
      | none =>
          refine ⟨(true, ⟨d, h :: ks⟩), Settles.of_succ (fun n => ?_), hI, Filled.missing hb⟩
          rw [Synchronization.fillDependencies]
          simp only [List.head?_cons, demand, ok_bind, hb]
          rfl
      | some b =>
          rcases addDependency_cases hv ⟨d, h :: ks⟩ b with ⟨hadd, hall⟩ | ⟨p, hadd, hp, hnot⟩
          · exact ⟨_, fill_ready hb hadd, hI, Filled.ready hb hall⟩
          · obtain ⟨hpush, hlt⟩ := push hI hb hp hnot
            obtain ⟨r, hset, hrest⟩ := ih _ (hn ▸ hlt) hpush rfl
            refine ⟨r, hset.succ (fun n => ?_), hrest⟩
            rw [fillDependencies_succ hb, hadd]
            rfl

end Dependencies

section Stack
variable {v : Synchronization σ} {st st' : Stacked σ} {d d' : σ} {h : BlockHash}
  {ks : List BlockHash} {b : Block} {r : Bool × Stacked σ}

theorem one_missing (hfill : Settles (fun n => v.fillDependencies n st) (true, st')) :
    Settles (fun n => v.synchronizeOne n st) (true, st') :=
  hfill.bind (Settles.of_forall fun _ => rfl)

/-- The block that `fill_dependencies` leaves on top is handed on. -/
theorem one_ready (hfill : Settles (fun n => v.fillDependencies n st) (false, ⟨d, h :: ks⟩))
    (hb : v.retrieve d h = some b) (htarget : Settles (fun n => v.target n d b) d') :
    Settles (fun n => v.synchronizeOne n st) (false, ⟨d', ks⟩) := by
  refine hfill.bind ?_
  filter_upwards [htarget] with n hn
  simp only [Bool.false_eq_true, if_false, List.head?_cons, demand, ok_bind, hb, hn,
    List.tail_cons]
  rfl

theorem all_empty (d : σ) :
    Settles (fun n => v.synchronizeAll n ⟨d, []⟩) (false, ⟨d, []⟩) := by
  refine Settles.of_succ (fun n => ?_)
  rw [Synchronization.synchronizeAll, if_pos rfl]
  rfl

theorem synchronizeAll_succ (hne : st.blocks ≠ []) (n : ℕ) :
    v.synchronizeAll (n + 1) st = v.synchronizeOne n st >>= fun r =>
      if r.1 then pure (true, r.2) else v.synchronizeAll n r.2 := by
  rw [Synchronization.synchronizeAll, if_neg hne]

theorem all_stopped (hne : st.blocks ≠ [])
    (hone : Settles (fun n => v.synchronizeOne n st) (true, st')) :
    Settles (fun n => v.synchronizeAll n st) (true, st') := by
  have hnext : Settles (fun n => v.synchronizeOne n st >>= fun r =>
      if r.1 then pure (true, r.2) else v.synchronizeAll n r.2) (true, st') :=
    hone.bind (Settles.of_forall fun _ => rfl)
  exact hnext.succ (synchronizeAll_succ hne)

/-- `synchronize` goes on from where `synchronize_one` leaves the stack. -/
theorem all_next_iff (hne : st.blocks ≠ [])
    (hone : Settles (fun n => v.synchronizeOne n st) (false, st')) :
    Settles (fun n => v.synchronizeAll n st) r ↔ Settles (fun n => v.synchronizeAll n st') r := by
  constructor
  · intro h
    exact hone.of_bind (h.shift (synchronizeAll_succ hne))
  · intro h
    have hnext : Settles (fun n => v.synchronizeOne n st >>= fun r =>
        if r.1 then pure (true, r.2) else v.synchronizeAll n r.2) r := hone.bind h
    exact hnext.succ (synchronizeAll_succ hne)

/-- What `synchronize_one` returns comes from the target. -/
theorem one_of_ready (hfill : Settles (fun n => v.fillDependencies n st) (false, ⟨d, h :: ks⟩))
    (hb : v.retrieve d h = some b) (hone : Settles (fun n => v.synchronizeOne n st) r) :
    ∃ n d', v.target n d b = .ok d' ∧ r = (false, ⟨d', ks⟩) := by
  obtain ⟨n, hn⟩ := (hfill.of_bind hone).exists_ok
  simp only [Bool.false_eq_true, if_false, List.head?_cons, demand, ok_bind, hb,
    List.tail_cons] at hn
  obtain ⟨d', htarget, hr⟩ := bind_eq_ok.mp hn
  exact ⟨n, d', htarget, (Except.ok.inj hr).symm⟩

end Stack

/-- Where the target of `v` returns, that of `v'` returns the same with a budget larger by `k`,
and otherwise they do not differ. -/
structure Follows (k : ℕ) (v v' : Synchronization σ) : Prop where
  synchronized : v'.synchronized = v.synchronized
  retrieve : v'.retrieve = v.retrieve
  target : ∀ {n d b r}, v.target n d b = .ok r → v'.target (n + k) d b = .ok r

section Follows
variable {v v' : Synchronization σ} {k n : ℕ} {st : Stacked σ} {r : Bool × Stacked σ}

theorem Follows.addDependency (hf : Follows k v v') (st : Stacked σ) (b : Block) :
    v'.addDependency st b = v.addDependency st b := by
  have hadd : v'.addHash = v.addHash := by
    funext st hash
    rw [Synchronization.addHash, Synchronization.addHash, hf.synchronized]
  cases b
  all_goals simp only [Synchronization.addDependency, hadd]

theorem Follows.fill (hf : Follows k v v') (hr : v.fillDependencies n st = .ok r) :
    v'.fillDependencies (n + k) st = .ok r := by
  induction n generalizing st with
  | zero => exact absurd hr (exhaust_ne_ok r)
  | succ n ih =>
      rw [Nat.succ_add]
      rw [Synchronization.fillDependencies] at hr ⊢
      refine bind_ok_mono (fun _ h => h) (fun top hr => ?_) hr
      rw [hf.retrieve]
      split at hr
      · rename_i b hb
        rw [hf.addDependency]
        exact ite_ok_mono (fun h => h) ih hr
      · exact hr

theorem Follows.one (hf : Follows k v v') (hr : v.synchronizeOne n st = .ok r) :
    v'.synchronizeOne (n + k) st = .ok r := by
  rw [Synchronization.synchronizeOne] at hr ⊢
  refine bind_ok_mono (fun _ h => hf.fill h) (fun x hr => ?_) hr
  refine ite_ok_mono (fun h => h) (fun hr => ?_) hr
  refine bind_ok_mono (fun _ h => h) (fun top hr => ?_) hr
  rw [hf.retrieve]
  split at hr
  · exact bind_ok_mono (fun _ h => hf.target h) (fun _ h => h) hr
  · exact hr

theorem Follows.all (hf : Follows k v v') (hr : v.synchronizeAll n st = .ok r) :
    v'.synchronizeAll (n + k) st = .ok r := by
  induction n generalizing st with
  | zero => exact absurd hr (exhaust_ne_ok r)
  | succ n ih =>
      rw [Nat.succ_add]
      rw [Synchronization.synchronizeAll] at hr ⊢
      refine ite_ok_mono (fun h => h) (fun hr => ?_) hr
      exact bind_ok_mono (fun _ h => hf.one h) (fun _ hr => ite_ok_mono (fun h => h) ih hr) hr

end Follows

end PaperNode.BlockSynchronization
