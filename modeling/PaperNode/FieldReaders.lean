import PaperNode.Words

/-!
# Reading fixed-width fields off a byte stream

A reader takes a value off the front of a stream of bytes and leaves the rest, or
fails where too few bytes are left. `Reads r enc` says that `r` is the inverse of
the encoding `enc`: it returns a value and a rest on exactly those streams that
are the encoding of the value followed by the rest. So it accepts every encoding,
whatever comes after it, and nothing else.

A record is read one field after the other. `ReadsWhen C r enc` is the same
statement about the values with `C`, the fields read so far being known.
-/
namespace PaperNode.FieldReaders
open Words

abbrev Reader (α : Type) := StateT (List UInt8) Option α

/-- The reader returns exactly the values whose encoding it finds. -/
def Reads {α : Type} (r : Reader α) (enc : α → List UInt8) : Prop :=
  ∀ s a rest, r s = some (a, rest) ↔ s = enc a ++ rest

variable {α β : Type} {s rest : List UInt8}

/-- Exactly `n` bytes. -/
def readBytes (n : ℕ) : Reader (List UInt8) := fun s =>
  if n ≤ s.length then some (s.take n, s.drop n) else none

theorem readBytes_eq_some {n : ℕ} {l : List UInt8} :
    readBytes n s = some (l, rest) ↔ s = l ++ rest ∧ l.length = n := by
  unfold readBytes
  constructor
  · intro h
    split_ifs at h with hn
    cases h
    exact ⟨(List.take_append_drop n s).symm, List.length_take_of_le hn⟩
  · rintro ⟨rfl, rfl⟩
    rw [if_pos (by simp)]
    simp

def readByte : Reader UInt8
  | [] => none
  | c :: s => some (c, s)

/-- A field of `n` bytes, most significant first. -/
def readWord (n : ℕ) : Reader (BitVec (8 * n)) := do
  let l ← readBytes n
  return ofBytes n l

/-- A field of `n` bytes as a little-endian machine keeps it in memory. -/
def readLittle (n : ℕ) : Reader (BitVec (8 * n)) := do
  let l ← readBytes n
  return ofBytes n l.reverse

theorem bind_eq_some {r : Reader α} {f : α → Reader β} {x : β × List UInt8} :
    (r >>= f) s = some x ↔ ∃ a rest, r s = some (a, rest) ∧ f a rest = some x := by
  change (r s).bind (fun p => f p.1 p.2) = some x ↔ _
  simp [Option.bind_eq_some_iff]

theorem pure_eq_some {a b : α} : (pure a : Reader α) s = some (b, rest) ↔ a = b ∧ s = rest := by
  change some (a, s) = some (b, rest) ↔ _
  simp

theorem reads_byte : Reads readByte (fun c => [c]) := by
  intro s c rest
  cases s with
  | nil => exact iff_of_false (nomatch ·) (nomatch ·)
  | cons d s =>
      change some (d, s) = some (c, rest) ↔ d :: s = c :: rest
      simp

theorem reads_word (n : ℕ) : Reads (readWord n) (bytes n) := by
  intro s x rest
  simp only [readWord, bind_eq_some, pure_eq_some, readBytes_eq_some]
  constructor
  · rintro ⟨l, _, ⟨rfl, hl⟩, rfl, rfl⟩
    rw [bytes_ofBytes hl]
  · rintro rfl
    exact ⟨bytes n x, rest, ⟨rfl, length_bytes n x⟩, ofBytes_bytes n x, rfl⟩

theorem reads_little (n : ℕ) : Reads (readLittle n) (littleEndian n) := by
  intro s x rest
  simp only [readLittle, bind_eq_some, pure_eq_some, readBytes_eq_some]
  constructor
  · rintro ⟨l, _, ⟨rfl, hl⟩, rfl, rfl⟩
    rw [littleEndian, bytes_ofBytes (by simpa using hl), List.reverse_reverse]
  · rintro rfl
    refine ⟨littleEndian n x, rest, ⟨rfl, length_littleEndian n x⟩, ?_, rfl⟩
    rw [littleEndian, List.reverse_reverse, ofBytes_bytes]

/-- The reader returns exactly the values with `C` whose encoding it finds. -/
def ReadsWhen {α : Type} (C : α → Prop) (r : Reader α) (enc : α → List UInt8) : Prop :=
  ∀ s a rest, r s = some (a, rest) ↔ C a ∧ s = enc a ++ rest

/-- One more field: a part of the value, in front of the fields that are left. -/
theorem ReadsWhen.field {C : β → Prop} {r : Reader α} {enc : α → List UInt8} {f : α → Reader β}
    {tail : β → List UInt8} (part : β → α) (hr : Reads r enc)
    (hf : ∀ a, ReadsWhen (fun x => C x ∧ part x = a) (f a) tail) :
    ReadsWhen C (r >>= f) (fun x => enc (part x) ++ tail x) := by
  intro s x rest
  simp only [bind_eq_some, hr s, hf _ _ x rest, List.append_assoc]
  constructor
  · rintro ⟨a, t, hs, ⟨hC, rfl⟩, rfl⟩
    exact ⟨hC, hs⟩
  · rintro ⟨hC, hs⟩
    exact ⟨part x, tail x ++ rest, hs, ⟨hC, rfl⟩, rfl⟩

/-- A last field that is itself read only when it has `D`. -/
theorem ReadsWhen.lastWhen {C : β → Prop} {D : α → Prop} {r : Reader α} {enc : α → List UInt8}
    {make : α → β} (part : β → α) (hr : ReadsWhen D r enc)
    (hmake : ∀ a x, D a ∧ make a = x ↔ C x ∧ part x = a) :
    ReadsWhen C (do let a ← r; return make a) (fun x => enc (part x)) := by
  intro s x rest
  simp only [bind_eq_some, hr s, pure_eq_some]
  constructor
  · rintro ⟨a, t, ⟨hD, hs⟩, hx, rfl⟩
    obtain ⟨hC, rfl⟩ := (hmake a x).mp ⟨hD, hx⟩
    exact ⟨hC, hs⟩
  · rintro ⟨hC, hs⟩
    obtain ⟨hD, hx⟩ := (hmake (part x) x).mpr ⟨hC, rfl⟩
    exact ⟨part x, rest, ⟨hD, hs⟩, hx, rfl⟩

theorem ReadsWhen.last {C : β → Prop} {r : Reader α} {enc : α → List UInt8} {make : α → β}
    (part : β → α) (hr : Reads r enc) (hmake : ∀ a x, make a = x ↔ C x ∧ part x = a) :
    ReadsWhen C (do let a ← r; return make a) (fun x => enc (part x)) := by
  have hwhen : ReadsWhen (fun _ => True) r enc := by
    intro s a rest
    rw [hr s a rest]
    exact (and_iff_right trivial).symm
  refine ReadsWhen.lastWhen part hwhen ?_
  intro a x
  rw [← hmake a x]
  exact and_iff_right trivial

/-- A value wrapped in a constructor, whose values are those with `C`. -/
theorem ReadsWhen.map {C : β → Prop} {r : Reader α} {enc : α → List UInt8} {make : α → β}
    {enc' : β → List UInt8} (hr : Reads r enc) (hmake : ∀ x, C x ↔ ∃ a, make a = x)
    (henc : ∀ a, enc' (make a) = enc a) :
    ReadsWhen C (do let a ← r; return make a) enc' := by
  intro s x rest
  simp only [bind_eq_some, hr s, pure_eq_some, hmake]
  constructor
  · rintro ⟨a, t, hs, rfl, rfl⟩
    exact ⟨⟨a, rfl⟩, by rw [henc]; exact hs⟩
  · rintro ⟨⟨a, rfl⟩, hs⟩
    exact ⟨a, rest, by rw [← henc]; exact hs, rfl, rfl⟩

theorem ReadsWhen.reads {r : Reader α} {enc : α → List UInt8}
    (h : ReadsWhen (fun _ => True) r enc) : Reads r enc := by
  intro s a rest
  rw [h s a rest]
  exact and_iff_right trivial

/-- A reader of fields of fixed size reads the same from the bytes it takes. -/
theorem Reads.take {r : Reader α} {enc : α → List UInt8} {n : ℕ} (hr : Reads r enc)
    (henc : ∀ a, (enc a).length = n) (hn : n ≤ s.length) :
    r s = (r (s.take n)).map (fun x => (x.1, s.drop n)) := by
  cases htake : r (s.take n) with
  | some x =>
      obtain ⟨a, rest⟩ := x
      have hs := (hr _ _ _).mp htake
      have hlength := congrArg List.length hs
      rw [List.length_append, henc, List.length_take_of_le hn] at hlength
      have hrest : rest = [] := List.eq_nil_of_length_eq_zero (by omega)
      rw [hrest, List.append_nil] at hs
      refine (hr _ _ _).mpr ?_
      rw [← hs, List.take_append_drop]
  | none =>
      by_contra hne
      obtain ⟨⟨a, rest⟩, ha⟩ := Option.ne_none_iff_exists'.mp hne
      have hs := (hr _ _ _).mp ha
      have hread : r (s.take n) = some (a, []) := by
        refine (hr _ _ _).mpr ?_
        rw [hs, List.append_nil, ← henc a, List.take_left]
      cases htake.symm.trans hread

theorem Reads.eq_none {r : Reader α} {enc : α → List UInt8} {n : ℕ} (hr : Reads r enc)
    (henc : ∀ a, (enc a).length = n) (hn : s.length < n) : r s = none := by
  by_contra hne
  obtain ⟨⟨a, rest⟩, ha⟩ := Option.ne_none_iff_exists'.mp hne
  have hlength := congrArg List.length ((hr _ _ _).mp ha)
  rw [List.length_append, henc] at hlength
  omega

end PaperNode.FieldReaders
