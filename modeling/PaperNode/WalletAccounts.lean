import PaperNode.Wallet

/-!
# The accounts of a wallet

The fixed keys share the table with the accounts. `accounts` skips them by
starting at the key made from their number. That key is five in the first byte,
not five in the last one, so an account whose number begins with a smaller byte
is skipped as well. It can be found, fetched and spent from; it is only never
listed.
-/
namespace PaperNode.WalletAccounts
open OrderedTable BoundedRecursion TransitionRuns Words Wallet

/-- The account was inserted and has not been erased since. -/
def Listed (E : WalletEnv) (as : List Action) (p : Key) : Prop :=
  Since (fun a => ∃ prv, a = .insert prv ∧ E.publicKey prv = p) (· = .erase p) as

variable {E : WalletEnv} {w w' : WalletStore} {a : Action} {draws : Draws} {p : Key}
  {as : List Action}

section Holding

theorem construct_stored (hp : p ∉ specials) :
    (WalletStore.construct E ∅ draws).stored p = none := by
  simp only [specials, List.mem_cons, List.not_mem_nil, or_false, not_or] at hp
  obtain ⟨h₀, h₁, h₂, h₃, h₄⟩ := hp
  unfold WalletStore.construct WalletStore.stored
  simp only [Table.get_empty, WalletStore.entryPutRaw, Table.get_put_ne _ _ h₀,
    Table.get_put_ne _ _ h₁, Table.get_put_ne _ _ h₂, Table.get_put_ne _ _ h₃,
    Table.get_put_ne _ _ h₄, Option.map_none]

/-- One operation keeps the accounts that were inserted and not erased. -/
theorem stored_iff_step (hp : p ∉ specials) (hw : Keyed E draws w) (h : Step E w a w')
    (ih : w.stored p ≠ none ↔ Listed E as p) :
    w'.stored p ≠ none ↔ Listed E (as ++ [a]) p := by
  unfold Listed
  rw [since_snoc]
  by_cases hins : ∃ prv, a = .insert prv ∧ E.publicKey prv = p
  · obtain ⟨prv, rfl, rfl⟩ := hins
    rw [step_stored hw.version_ne h]
    simp [written]
  by_cases hdel : a = .erase p
  · subst hdel
    rw [step_stored hw.version_ne h]
    simp [written]
  · have hsame : w'.stored p = w.stored p :=
      step_unwritten hw.version_ne h
        (fun v => not_written hp (fun prv ha hprv => hins ⟨prv, ha, hprv⟩) hdel)
    rw [hsame, ih]
    constructor
    · exact fun hl => Or.inr ⟨hl, hdel⟩
    · intro hl
      rcases hl with hl | hl
      · exact absurd hl hins
      · exact hl.1

theorem opened_stored (h : Opened E draws as w) (hp : p ∉ specials) :
    w.stored p ≠ none ↔ Listed E as p := by
  have both : Keyed E draws w ∧ (w.stored p ≠ none ↔ Listed E as p) := by
    refine h.invariant (I := fun as t => Keyed E draws t ∧ (t.stored p ≠ none ↔ Listed E as p))
      ?_ ?_
    · refine ⟨construct_keyed E draws, ?_⟩
      rw [construct_stored hp]
      constructor
      · intro hn
        exact absurd rfl hn
      · intro hl
        exact absurd hl not_since_nil
    · intro as t a u ht hstep
      exact ⟨ht.1.step hstep.1 hstep.2, stored_iff_step hp ht.1 hstep.2 ht.2⟩
  exact both.2

end Holding

section Finding

theorem stored_ne_none_iff : w.stored p ≠ none ↔ ∃ v, w.entries.get p = some v := by
  unfold WalletStore.stored
  rw [Option.ne_none_iff_exists']
  constructor
  · intro h
    obtain ⟨c, hc⟩ := h
    obtain ⟨v, hv, _⟩ := Option.map_eq_some_iff.mp hc
    exact ⟨v, hv⟩
  · intro h
    obtain ⟨v, hv⟩ := h
    exact ⟨v.key, by rw [hv]; rfl⟩

theorem mem_accounts : p ∈ w.accounts ↔ w.stored p ≠ none ∧ ofQword specialCount ≤ p := by
  unfold WalletStore.accounts WalletStore.begin
  rw [stored_ne_none_iff, List.mem_map]
  constructor
  · intro h
    obtain ⟨e, he, rfl⟩ := h
    obtain ⟨hm, hle⟩ := Table.mem_seek.mp he
    exact ⟨⟨e.2, Table.mem_entries.mp hm⟩, hle⟩
  · intro h
    obtain ⟨⟨v, hv⟩, hle⟩ := h
    exact ⟨(p, v), Table.mem_seek.mpr ⟨Table.mem_entries.mpr hv, hle⟩, rfl⟩

theorem existsKey_iff : w.existsKey p = true ↔ w.stored p ≠ none := by
  rw [stored_ne_none_iff]
  unfold WalletStore.existsKey WalletStore.find
  constructor
  · intro h
    cases hs : w.entries.seek p with
    | nil => simp [hs] at h
    | cons e es =>
        rw [hs] at h
        dsimp only at h
        split_ifs at h with he
        · subst he
          exact ⟨e.2, Table.head_seek.mp (by rw [hs]; rfl)⟩
        · cases h
  · intro h
    obtain ⟨v, hv⟩ := h
    obtain ⟨es, hs⟩ := List.head?_eq_some_iff.mp (Table.head_seek.mpr hv)
    rw [hs]
    simp

theorem not_special_of_le (hp : ofQword specialCount ≤ p) : p ∉ specials := by
  intro hs
  have hlt : ∀ q ∈ specials, q < ofQword specialCount := by
    simp only [specials, List.forall_mem_cons, List.not_mem_nil, false_imp_iff, implies_true,
      and_true]
    decide +kernel
  exact absurd hp (not_le.mpr (hlt p hs))

end Finding

/-- A wallet lists exactly its accounts, each once, and finds exactly those, if
and only if none of them begins with a byte below five. -/
theorem accounts_exact_iff (h : Opened E draws as w) :
    ((∀ p, p ∈ w.accounts ↔ Listed E as p) ∧ w.accounts.Nodup ∧
      ∀ p, p ∉ specials → (w.existsKey p = true ↔ Listed E as p)) ↔
    ∀ p, Listed E as p → ofQword specialCount ≤ p := by
  constructor
  · intro hexact p hp
    exact (mem_accounts.mp ((hexact.1 p).mpr hp)).2
  · intro hlarge
    refine ⟨?_, Table.nodup_seek _ _, ?_⟩
    · intro p
      rw [mem_accounts]
      constructor
      · intro hp
        exact (opened_stored h (not_special_of_le hp.2)).mp hp.1
      · intro hp
        have hle := hlarge p hp
        exact ⟨(opened_stored h (not_special_of_le hle)).mpr hp, hle⟩
    · intro p hp
      rw [existsKey_iff]
      exact opened_stored h hp

section Sample

def sampleInserted (prv : Key) : WalletStore :=
  ((WalletStore.construct sampleWallet ∅ sampleDraws).insert sampleWallet prv).2

theorem sampleInserted_opened {prv : Key} (hp : sampleWallet.publicKey prv ∉ specials) :
    Opened sampleWallet sampleDraws [.insert prv] (sampleInserted prv) :=
  .snoc .nil ⟨hp, rfl⟩

theorem listed_one {prv : Key} : Listed E [.insert prv] p ↔ E.publicKey prv = p := by
  unfold Listed
  rw [← List.nil_append [Action.insert prv], since_snoc]
  simp [not_since_nil]

theorem accounts_exact_iff_one :
    (∀ p, p ∈ (sampleInserted 1).accounts ↔ Listed sampleWallet [.insert 1] p) ∧
      Listed sampleWallet [.insert 1] (sampleWallet.publicKey 1) := by
  have h : Opened sampleWallet sampleDraws [.insert 1] (sampleInserted 1) :=
    sampleInserted_opened (by decide +kernel)
  refine ⟨((accounts_exact_iff h).mpr ?_).1, listed_one.mpr rfl⟩
  intro p hp
  rw [← listed_one.mp hp]
  decide +kernel

/-- The account of the private key eighteen begins with a zero byte. -/
theorem small_account_unlisted : ¬ ∀ E draws as w, Opened E draws as w →
    (∀ p, p ∈ w.accounts ↔ Listed E as p) ∧ w.accounts.Nodup ∧
      ∀ p, p ∉ specials → (w.existsKey p = true ↔ Listed E as p) := by
  intro hall
  have h : Opened sampleWallet sampleDraws [.insert 18] (sampleInserted 18) :=
    sampleInserted_opened (by decide +kernel)
  have hmem := ((hall _ _ _ _ h).1 (sampleWallet.publicKey 18)).mpr (listed_one.mpr rfl)
  revert hmem
  decide +kernel

end Sample

end PaperNode.WalletAccounts
