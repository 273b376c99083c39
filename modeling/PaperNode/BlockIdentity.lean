import PaperNode.Blocks

/-!
# What a block hash identifies

The digest is taken over the concatenated hashables, with neither a type tag nor
a length. Sends have 80 bytes and open blocks 96, so these two types stand apart.
Receive and change blocks both have 64, a predecessor followed by one more word,
and a digest without collisions still gives both the same hash when that word is
the same.
-/
namespace PaperNode.BlockIdentity
open Words Blocks

/-- Two blocks of one type with equal hashables. -/
def SameHashables : Block → Block → Prop
  | .sendBlock b, .sendBlock c => b.hashables = c.hashables
  | .receiveBlock b, .receiveBlock c => b.hashables = c.hashables
  | .openBlock b, .openBlock c => b.hashables = c.hashables
  | .changeBlock b, .changeBlock c => b.hashables = c.hashables
  | _, _ => False

/-- A receive and a change block with one predecessor, where the source hash of
the one is the representative number of the other. -/
def Confusable : Block → Block → Prop
  | .receiveBlock b, .changeBlock c =>
      b.hashables.previous = c.hashables.previous ∧
        b.hashables.source = c.hashables.representative
  | .changeBlock b, .receiveBlock c =>
      b.hashables.previous = c.hashables.previous ∧
        b.hashables.representative = c.hashables.source
  | _, _ => False

theorem SameHashables.type_eq {b c : Block} (h : SameHashables b c) : b.type = c.type := by
  cases b <;> cases c <;> first | rfl | exact h.elim

theorem Confusable.type_ne {b c : Block} (h : Confusable b c) : b.type ≠ c.type := by
  cases b <;> cases c <;> first | exact h.elim | exact (nomatch ·)

theorem length_hashed (b : Block) : b.hashed.length =
    match b with
    | .sendBlock _ => 80
    | .receiveBlock _ => 64
    | .openBlock _ => 96
    | .changeBlock _ => 64 := by
  cases b <;>
    simp [Block.hashed, SendHashables.hashed, ReceiveHashables.hashed, OpenHashables.hashed,
      ChangeHashables.hashed]

theorem sendHashables_hashed_inj {x y : SendHashables} : x.hashed = y.hashed ↔ x = y := by
  obtain ⟨p, d, v⟩ := x
  obtain ⟨p', d', v'⟩ := y
  simp only [SendHashables.hashed, bytes_append_inj, SendHashables.mk.injEq]
  exact and_congr_right' (and_congr_right' (bytes_inj (n := 16)))

theorem receiveHashables_hashed_inj {x y : ReceiveHashables} : x.hashed = y.hashed ↔ x = y := by
  obtain ⟨p, q⟩ := x
  obtain ⟨p', q'⟩ := y
  simp only [ReceiveHashables.hashed, bytes_append_inj, ReceiveHashables.mk.injEq]
  exact and_congr_right' (bytes_inj (n := 32))

theorem openHashables_hashed_inj {x y : OpenHashables} : x.hashed = y.hashed ↔ x = y := by
  obtain ⟨q, r, a⟩ := x
  obtain ⟨q', r', a'⟩ := y
  simp only [OpenHashables.hashed, bytes_append_inj, OpenHashables.mk.injEq]
  exact and_congr_right' (and_congr_right' (bytes_inj (n := 32)))

theorem changeHashables_hashed_inj {x y : ChangeHashables} : x.hashed = y.hashed ↔ x = y := by
  obtain ⟨p, r⟩ := x
  obtain ⟨p', r'⟩ := y
  simp only [ChangeHashables.hashed, bytes_append_inj, ChangeHashables.mk.injEq]
  exact and_congr_right' (bytes_inj (n := 32))

theorem receive_change_hashed {x : ReceiveHashables} {y : ChangeHashables} :
    x.hashed = y.hashed ↔ x.previous = y.previous ∧ x.source = y.representative := by
  simp only [ReceiveHashables.hashed, ChangeHashables.hashed, bytes_append_inj]
  exact and_congr_right' (bytes_inj (n := 32))

theorem hashed_eq_iff (b c : Block) :
    b.hashed = c.hashed ↔ SameHashables b c ∨ Confusable b c := by
  have lengths : b.hashed = c.hashed → b.hashed.length = c.hashed.length := congrArg List.length
  rw [length_hashed, length_hashed] at lengths
  cases b with
  | sendBlock b =>
      cases c with
      | sendBlock c => simp [SameHashables, Confusable, Block.hashed, sendHashables_hashed_inj]
      | receiveBlock c | openBlock c | changeBlock c =>
          simpa [SameHashables, Confusable] using lengths
  | openBlock b =>
      cases c with
      | openBlock c => simp [SameHashables, Confusable, Block.hashed, openHashables_hashed_inj]
      | receiveBlock c | sendBlock c | changeBlock c =>
          simpa [SameHashables, Confusable] using lengths
  | receiveBlock b =>
      cases c with
      | receiveBlock c =>
          simp [SameHashables, Confusable, Block.hashed, receiveHashables_hashed_inj]
      | changeBlock c => simp [SameHashables, Confusable, Block.hashed, receive_change_hashed]
      | openBlock c | sendBlock c => simpa [SameHashables, Confusable] using lengths
  | changeBlock b =>
      cases c with
      | changeBlock c => simp [SameHashables, Confusable, Block.hashed, changeHashables_hashed_inj]
      | receiveBlock c =>
          simp only [SameHashables, Confusable, Block.hashed, false_or]
          rw [eq_comm, receive_change_hashed, eq_comm, @eq_comm _ c.hashables.source]
      | openBlock c | sendBlock c => simpa [SameHashables, Confusable] using lengths

/-- Under a digest without collisions two blocks have one hash if and only if
they have one type and equal hashables, or are a receive and a change block that
agree word by word. -/
theorem hash_eq_iff_same_block {D : Type*} {blake2b : List UInt8 → D}
    (hinj : Function.Injective blake2b) (b c : Block) :
    b.hash blake2b = c.hash blake2b ↔
      (b.type = c.type ∧ SameHashables b c) ∨ (b.type ≠ c.type ∧ Confusable b c) := by
  unfold Block.hash
  rw [hinj.eq_iff, hashed_eq_iff]
  constructor
  · intro h
    exact h.imp (fun hs => ⟨hs.type_eq, hs⟩) (fun hc => ⟨hc.type_ne, hc⟩)
  · intro h
    exact h.imp (fun hs => hs.2) (fun hc => hc.2)

/-- Two sends that differ only in signature and work have one hash. -/
theorem hash_ignores_signature : ∃ b c : Block, b ≠ c ∧
    b.hash (id : List UInt8 → List UInt8) = c.hash id := by
  have same : ∀ (x : SendHashables) (σ τ : Signature) (v w : Word64),
      (Block.sendBlock ⟨x, σ, v⟩).hash (id : List UInt8 → List UInt8) =
        (Block.sendBlock ⟨x, τ, w⟩).hash id := by
    intro x σ τ v w
    rw [hash_eq_iff_same_block Function.injective_id]
    exact Or.inl ⟨rfl, rfl⟩
  exact ⟨_, _, by decide +kernel, same ⟨1, 2, 3⟩ 4 5 6 7⟩

/-- The receive block of predecessor 1 and source 2 and the change block of
predecessor 1 and representative 2 have one hash. -/
theorem receive_change_collide : ¬ ∀ (D : Type) (blake2b : List UInt8 → D),
    Function.Injective blake2b → ∀ b c : Block, b.hash blake2b = c.hash blake2b →
      b.type = c.type ∧ SameHashables b c := by
  intro hall
  have hsame : (Block.receiveBlock ⟨⟨1, 2⟩, 0, 0⟩).hashed =
      (Block.changeBlock ⟨⟨1, 2⟩, 0, 0⟩).hashed := by
    rw [hashed_eq_iff]
    exact Or.inr ⟨rfl, rfl⟩
  have hcollide := hall (List UInt8) id Function.injective_id _ _ (congrArg id hsame)
  exact absurd hcollide.1 (by decide)

end PaperNode.BlockIdentity
