import WhiteBox.Proofs.Keying.Label
import WhiteBox.Proofs.Network.Mask

/-!
# No two wires share a derivation

A `Slot` is a place where a composite encoding holds the shuffle of one nibble wire: a half of
a byte of a block mask, of a word step, of a block of round outputs, or of a single byte of
them, and the accumulator of an XOR gate.  Whatever the shift is, a slot holds the shuffle of
one role, `Slot.role`, which its coordinates name.

The role of a slot leads back to the slot (`Slot.ofRole?_role`), with one exception.  A single
byte of the output of half a round is also byte `p` of the whole block if `p` is below sixteen,
and the two are derived alike.  So the slot that is read off a role is the one in the block,
and two slots share a label only if they are the same or such twins.
-/

namespace WhiteBox

/-! ## Halves of bytes -/

/-- One of the two nibbles of a byte. -/
inductive Half where
  /-- Bits `4..8`. -/
  | high
  /-- Bits `0..4`. -/
  | low
  deriving DecidableEq

/-- How far the nibble lies behind the first nibble of its byte. -/
def Half.offset : Half → Nat
  | high => 0
  | low => 1

theorem Half.offset_lt (h : Half) : h.offset < 2 := by
  cases h with
  | high => decide
  | low => decide

/-- The shuffle of a half. -/
def NibblePair.half (p : NibblePair) : Half → NibbleShuffle
  | .high => p.high
  | .low => p.low

namespace NibblePos

/-- The position of a half of byte `i`. -/
def ofHalf (i : Fin 128) (h : Half) : NibblePos :=
  ⟨2 * i + h.offset, by
    have byte := i.isLt
    have offset := h.offset_lt
    simp only [Quantity.max]
    omega⟩

/-- The byte that the position lies in. -/
def byte (n : NibblePos) : Fin 128 :=
  ⟨n.val / 2, by
    have bound : n.val ≤ 255 := n.le_max
    omega⟩

/-- The half of its byte that the position names. -/
def half (n : NibblePos) : Half := if n.val % 2 = 0 then .high else .low

@[simp] theorem byte_ofHalf (i : Fin 128) (h : Half) : (ofHalf i h).byte = i := by
  have offset := h.offset_lt
  refine Fin.ext ?_
  show (2 * i.val + h.offset) / 2 = i.val
  omega

@[simp] theorem half_ofHalf (i : Fin 128) (h : Half) : (ofHalf i h).half = h := by
  cases h with
  | high => exact if_pos (by show (2 * i.val + 0) % 2 = 0; omega)
  | low => exact if_neg (by show ¬ (2 * i.val + 1) % 2 = 0; omega)

theorem pair_eq_ofHalf (i : Fin 16) :
    pair i = (ofHalf (i.castLE (by decide)) .high, ofHalf (i.castLE (by decide)) .low) :=
  Prod.ext (Coordinate.ext (Nat.add_zero _).symm) (Coordinate.ext rfl)

end NibblePos

/-! ## Slots and their roles -/

/-- A place of a composite encoding that holds the shuffle of a nibble wire. -/
inductive Slot where
  /-- A half of a byte of the block mask at a position. -/
  | blockMask (position : BytePos) (surface : Surface) (byte : Fin 16) (half : Half)
  /-- A half of a byte of the word step at a position. -/
  | wordStep (round : Round) (position : BytePos) (surface : Surface) (byte : Fin 4) (half : Half)
  /-- A half of a byte of the whole output of half a round. -/
  | blockRound (round : Round) (surface : Surface) (byte : Fin 16) (half : Half)
  /-- A half of a single byte of the output of half a round. -/
  | byteRound (round : Round) (position : Fin 128) (surface : Surface) (half : Half)
  /-- The accumulator behind a gate. -/
  | xor (round : Round) (position : NibblePos) (gate : Gate) (surface : Surface)

namespace Slot

/-- The role whose shuffle the slot holds. -/
def role : Slot → Role
  | blockMask p f i h => .mask p (.ofHalf (i.castLE (by decide)) h) f
  | wordStep r p f i h => .step r p (.ofHalf (i.castLE (by decide)) h) f
  | blockRound r f i h => .round r (.ofHalf (i.castLE (by decide)) h) f
  | byteRound r p f h => .round r (.ofHalf p h) f
  | xor r n g f => .xor r n g f

/-- What the slot holds in the encodings of a context. -/
def shuffle (ctx : KeyContext) (shift : Fin 16 → Nat) : Slot → Except BuildError NibbleShuffle
  | blockMask p f i h => do
    let bytes ← ctx.blockMask p f shift
    pure ((bytes.get i).pair.half h)
  | wordStep r p f i h => pure (((ctx.wordStep r p f).get i).half h)
  | blockRound r f i h => pure (((ctx.blockRound r f).get i).half h)
  | byteRound r p f h => do
    let pair ← ctx.byteRound r (Coordinate.ofFin .bytePosition p) f
    pure (pair.half h)
  | xor r n g f => pure (ctx.xorEncoding r n g f)

/-- What the encoding around the slot needs to be built: inside, the shift of a block mask has
to name positions whose boundary matrices can be drawn. -/
def IsBuilt (ctx : KeyContext) (shift : Fin 16 → Nat) : Slot → Prop
  | blockMask _ .inside _ _ =>
    ∀ i, ∃ h : shift i ≤ Quantity.bytePosition.max, ctx.HasMixing none ⟨shift i, h⟩ .byte
  | _ => True

/-- A half of a single byte, and the same half of that byte in the whole block. -/
inductive Twins : Slot → Slot → Prop where
  /-- The byte is one of the sixteen. -/
  | intro (round : Round) (surface : Surface) (byte : Fin 16) (half : Half) :
    Twins (byteRound round (byte.castLE (by decide)) surface half)
      (blockRound round surface byte half)

/-! ## The slot of a role -/

/-- The slot that a role belongs to; of two twins, the one in the block. -/
def ofRole? : Role → Option Slot
  | .mask p n f => if h : n.byte.val < 16 then some (blockMask p f ⟨n.byte, h⟩ n.half) else none
  | .tyi r p n =>
    if h : n.byte.val < 4 then some (wordStep r p .inside ⟨n.byte, h⟩ n.half) else none
  | .mbInverse r p n =>
    if h : n.byte.val < 4 then some (wordStep r p .outside ⟨n.byte, h⟩ n.half) else none
  | .round r n f =>
    if h : n.byte.val < 16 then some (blockRound r f ⟨n.byte, h⟩ n.half)
    else some (byteRound r n.byte f n.half)
  | .xor r n g f => some (xor r n g f)
  | .mixing _ _ _ => none

/-- The slot itself, or its twin in the block. -/
def canonical : Slot → Slot
  | byteRound r p f h => if lt : p.val < 16 then blockRound r f ⟨p, lt⟩ h else byteRound r p f h
  | a => a

theorem ofRole?_role (a : Slot) : ofRole? a.role = some a.canonical := by
  cases a with
  | blockMask p f i h => simp [role, ofRole?, canonical]
  | wordStep r p f i h =>
    cases f with
    | inside => simp [role, Role.step, ofRole?, canonical]
    | outside => simp [role, Role.step, ofRole?, canonical]
  | blockRound r f i h => simp [role, ofRole?, canonical]
  | byteRound r p f h =>
    by_cases lt : p.val < 16
    · simp [role, ofRole?, canonical, lt]
    · simp [role, ofRole?, canonical, lt]
  | xor r n g f => rfl

/-- A slot is its own canonical slot, or has it as its twin. -/
theorem canonical_eq_or_twins (a : Slot) : a.canonical = a ∨ Twins a a.canonical := by
  cases a with
  | byteRound r p f h =>
    by_cases lt : p.val < 16
    · rw [canonical, dif_pos lt]
      exact .inr (.intro r f ⟨p, lt⟩ h)
    · exact .inl (dif_neg lt)
  | blockMask _ _ _ _ => exact .inl rfl
  | wordStep _ _ _ _ _ => exact .inl rfl
  | blockRound _ _ _ _ => exact .inl rfl
  | xor _ _ _ _ => exact .inl rfl

theorem Twins.role_eq {a b : Slot} (h : Twins a b) : a.role = b.role := by
  cases h
  rfl

theorem Twins.left_unique {a b c : Slot} (ha : Twins a c) (hb : Twins b c) : a = b := by
  cases ha
  cases hb
  rfl

theorem eq_or_twins_of_role_eq {a b : Slot} (h : a.role = b.role) :
    a = b ∨ Twins a b ∨ Twins b a := by
  have same : a.canonical = b.canonical := by
    refine Option.some.inj ?_
    rw [← ofRole?_role a, ← ofRole?_role b, h]
  obtain ha | ha := canonical_eq_or_twins a
  · obtain hb | hb := canonical_eq_or_twins b
    · exact .inl (ha.symm.trans (same.trans hb))
    · rw [← same, ha] at hb
      exact .inr (.inr hb)
  · obtain hb | hb := canonical_eq_or_twins b
    · rw [same, hb] at ha
      exact .inr (.inl ha)
    · rw [same] at ha
      exact .inl (ha.left_unique hb)

end Slot

/-! ## What the builders put into the slots -/

theorem NibblePair.half_ofWires (wire : NibblePos → NibbleShuffle) (i : Fin 128) (h : Half) :
    (ofWires wire (.ofHalf i .high, .ofHalf i .low)).half h = wire (.ofHalf i h) := by
  cases h with
  | high => rfl
  | low => rfl

namespace KeyContext

variable {ctx : KeyContext}

/-- The halves of a block mask do not depend on how its bytes are mixed. -/
theorem pair_of_blockMask {position : BytePos} {surface : Surface} {shift : Fin 16 → Nat}
    {bytes : Vector MaskByte 16} (built : ctx.blockMask position surface shift = .ok bytes)
    (i : Fin 16) :
    (bytes.get i).pair = ctx.maskPair position surface i := by
  have entry : (ctx.maskPairs position surface)[i.val] = _ := Vector.getElem_ofFn i.isLt
  cases surface with
  | outside =>
    cases built
    exact (congrArg MaskByte.pair (Vector.getElem_map _ i.isLt)).trans entry
  | inside =>
    rw [blockMask_inside_eq] at built
    obtain ⟨mixings, -, built⟩ := bind_eq_ok_iff.1 built
    cases built
    exact (congrArg MaskByte.pair (Vector.getElem_zipWith i.isLt)).trans entry

theorem byteRound_eq_ok (ctx : KeyContext) (round : Round) (p : Fin 128) (surface : Surface) :
    ctx.byteRound round (Coordinate.ofFin .bytePosition p) surface =
      .ok (.ofWires (fun n => ctx.roundEncoding round n surface)
        (.ofHalf p .high, .ofHalf p .low)) := by
  have high : 2 * p.val ≤ Quantity.nibblePosition.max := by
    have bound := p.isLt
    simp only [Quantity.max]
    omega
  have low : 2 * p.val + 1 ≤ Quantity.nibblePosition.max := by
    have bound := p.isLt
    simp only [Quantity.max]
    omega
  have split : BytePos.nibbles (Coordinate.ofFin .bytePosition p) =
      .ok (.ofHalf p .high, .ofHalf p .low) := by
    rw [BytePos.nibbles, Coordinate.ofFin, Coordinate.ofNat_of_le high, ok_bind,
      Coordinate.ofNat_of_le low, ok_bind]
    rfl
  rw [byteRound, split, ok_bind]
  rfl

theorem byteRound_eq_error_iff {round : Round} {p : BytePos} {surface : Surface} {e : BuildError} :
    ctx.byteRound round p surface = .error e ↔
      128 ≤ p.val ∧ e = .outOfRange .nibblePosition (2 * p.val) := by
  obtain lt | ge := Nat.lt_or_ge p.val 128
  · have built := ctx.byteRound_eq_ok round ⟨p.val, lt⟩ surface
    constructor
    · intro failed
      cases failed.symm.trans built
    · rintro ⟨ge, -⟩
      omega
  · have tooLarge : Coordinate.ofNat .nibblePosition (2 * p.val) =
        .error (.outOfRange .nibblePosition (2 * p.val)) := by
      refine Coordinate.ofNat_eq_error_iff.2 ⟨?_, rfl⟩
      simp only [Quantity.max]
      omega
    have failed : ctx.byteRound round p surface =
        .error (.outOfRange .nibblePosition (2 * p.val)) := by
      rw [byteRound, BytePos.nibbles, tooLarge]
      rfl
    rw [failed, Except.error.injEq, eq_comm]
    exact ⟨fun same => ⟨ge, same⟩, fun both => both.2⟩

/-- A byte of a block is derived as it is on its own. -/
theorem byteRound_ofFin (ctx : KeyContext) (round : Round) (p : Fin 16) (surface : Surface) :
    ctx.byteRound round (.ofFin p) surface = .ok ((ctx.blockRound round surface).get p) := by
  have entry : (ctx.blockRound round surface).get p = _ := Vector.getElem_ofFn p.isLt
  rw [entry, NibblePos.pair_eq_ofHalf]
  exact ctx.byteRound_eq_ok round (p.castLE (by decide)) surface

end KeyContext

namespace Slot

variable {ctx : KeyContext} {shift : Fin 16 → Nat}

theorem eq_of_shuffle_eq_ok {slot : Slot} {s : NibbleShuffle}
    (h : slot.shuffle ctx shift = .ok s) : s = ctx.shuffle slot.role := by
  cases slot with
  | blockMask p f i half =>
    rw [shuffle] at h
    cases built : ctx.blockMask p f shift with
    | error e =>
      rw [built] at h
      cases h
    | ok bytes =>
      rw [built, ok_bind, KeyContext.pair_of_blockMask built, KeyContext.maskPair,
        NibblePos.pair_eq_ofHalf, NibblePair.half_ofWires] at h
      exact (Except.ok.inj h).symm
  | wordStep r p f i half =>
    have entry : (ctx.wordStep r p f).get i = _ := Vector.getElem_ofFn i.isLt
    rw [shuffle, entry, NibblePos.pair_eq_ofHalf, NibblePair.half_ofWires,
      ctx.stepEncoding_eq] at h
    exact (Except.ok.inj h).symm
  | blockRound r f i half =>
    have entry : (ctx.blockRound r f).get i = _ := Vector.getElem_ofFn i.isLt
    rw [shuffle, entry, NibblePos.pair_eq_ofHalf, NibblePair.half_ofWires] at h
    exact (Except.ok.inj h).symm
  | byteRound r p f half =>
    rw [shuffle, KeyContext.byteRound_eq_ok, ok_bind, NibblePair.half_ofWires] at h
    exact (Except.ok.inj h).symm
  | xor r n g f => exact (Except.ok.inj h).symm

theorem exists_shuffle_eq_ok {slot : Slot} (h : slot.IsBuilt ctx shift) :
    ∃ s, slot.shuffle ctx shift = .ok s := by
  cases slot with
  | blockMask p f i half =>
    have boundary : ∃ matrices, ctx.IsBoundary shift matrices f := by
      cases f with
      | outside => exact ⟨fun _ => .identity, fun _ => rfl⟩
      | inside =>
        exact KeyContext.exists_isBoundary (fun j => (h j).choose) fun _ j => (h j).choose_spec
    obtain ⟨matrices, boundary⟩ := boundary
    obtain ⟨bytes, built, -⟩ := KeyContext.exists_blockMask boundary p
    rw [shuffle, built]
    exact ⟨_, rfl⟩
  | wordStep r p f i half => exact ⟨_, rfl⟩
  | blockRound r f i half => exact ⟨_, rfl⟩
  | byteRound r p f half =>
    rw [shuffle, KeyContext.byteRound_eq_ok]
    exact ⟨_, rfl⟩
  | xor r n g f => exact ⟨_, rfl⟩

/-- Each slot holds the shuffle of its role, and no two slots share the label of their roles
but the twins, which hold the same.  A byte of the output of half a round has no encoding of
its own exactly from position 128 on. -/
theorem derived_once (ctx : KeyContext) (shift : Fin 16 → Nat) :
    (∀ slot : Slot,
      (∀ s, slot.shuffle ctx shift = .ok s → s = ctx.shuffle slot.role) ∧
        (slot.IsBuilt ctx shift → slot.shuffle ctx shift = .ok (ctx.shuffle slot.role))) ∧
      (∀ a b : Slot, a.role.label = b.role.label ↔ a = b ∨ Twins a b ∨ Twins b a) ∧
      (∀ (round : Round) (p : Fin 16) (surface : Surface),
        ctx.byteRound round (.ofFin p) surface = .ok ((ctx.blockRound round surface).get p)) ∧
      (∀ (round : Round) (p : BytePos) (surface : Surface) (e : BuildError),
        ctx.byteRound round p surface = .error e ↔
          128 ≤ p.val ∧ e = .outOfRange .nibblePosition (2 * p.val)) ∧
      Quantity.nibblePosition.name = "nibble position" ∧ Quantity.nibblePosition.max = 255 := by
  refine ⟨fun slot => ⟨fun s => eq_of_shuffle_eq_ok, fun built => ?_⟩, fun a b => ⟨fun h => ?_, ?_⟩,
    ctx.byteRound_ofFin, fun _ _ _ _ => KeyContext.byteRound_eq_error_iff, rfl, rfl⟩
  · obtain ⟨s, h⟩ := exists_shuffle_eq_ok built
    rw [h, eq_of_shuffle_eq_ok h]
  · exact eq_or_twins_of_role_eq (Role.label_inj.1 h)
  · rintro (rfl | twins | twins)
    · rfl
    · rw [twins.role_eq]
    · rw [twins.role_eq]

theorem derived_once_mask :
    IsBuilt ⟨[0x16]⟩ (fun _ => 4) (.blockMask ⟨5, by decide⟩ .inside 7 .low) ∧
      shuffle ⟨[0x16]⟩ (fun _ => 4) (.blockMask ⟨5, by decide⟩ .inside 7 .low) =
        .ok (KeyContext.shuffle ⟨[0x16]⟩ (.mask ⟨5, by decide⟩ ⟨15, by decide⟩ .inside)) ∧
      KeyContext.byteRound ⟨[0x16]⟩ ⟨3, by decide⟩ ⟨200, by decide⟩ .inside =
        .error (.outOfRange .nibblePosition 400) := by
  have built : IsBuilt ⟨[0x16]⟩ (fun _ => 4) (.blockMask ⟨5, by decide⟩ .inside 7 .low) :=
    fun _ => ⟨show 4 ≤ 255 by decide, KeyContext.hasMixing_four⟩
  obtain ⟨held, -, -, refused, -⟩ := derived_once ⟨[0x16]⟩ fun _ => 4
  refine ⟨built, (held _).2 built, ?_⟩
  exact (refused ⟨3, by decide⟩ ⟨200, by decide⟩ .inside _).2 ⟨by decide, rfl⟩

end Slot

end WhiteBox
