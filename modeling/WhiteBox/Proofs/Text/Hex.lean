import WhiteBox.Text.Hex

/-!
# Digits that are written and digits that are read

The digits of base sixteen are listed in `Digits.all`, and what is written for a byte or a nibble
is looked up in that list by its value (`Hex.text_eq`, `Hex.nibbleText_eq`).

Letters are read in either case.  A character is a digit if it is one of those that are written,
or a capital letter in place of one.  A text is the digits of bytes if it is so up to letter case
(`Hex.decode_utf8_eq_ok_iff`).  Any other text is refused: if its bytes cannot be paired for that
reason, and else for the first byte that is no digit (`Hex.decode_eq_error_iff`).

Lengths and positions count the bytes of the text in UTF-8.  A digit takes one byte.  Every other
character has one that is no digit, since the bytes of a character outside of ASCII begin with one
that is outside of ASCII.
-/

namespace WhiteBox

/-! ## Digits that are written -/

namespace Digits

/-- The digits of base sixteen, in order. -/
def all : Vector Char 16 :=
  #v['0', '1', '2', '3', '4', '5', '6', '7', '8', '9', 'a', 'b', 'c', 'd', 'e', 'f']

/-- A byte in two digits: one for the sixteens in it, and one for the rest. -/
def ofByte (b : Byte) : List Char :=
  [all.get ⟨b.toNat / 16, by omega⟩, all.get ⟨b.toNat % 16, by omega⟩]

/-- Each byte in two digits. -/
def ofBytes (bytes : List Byte) : String := String.ofList (bytes.flatMap ofByte)

/-- Each nibble in one digit. -/
def ofNibbles (nibbles : List Nibble) : String :=
  String.ofList (nibbles.map fun n => all.get n.toFin)

/-- A byte without a leading zero: in one digit below sixteen, and else in two. -/
def ofNumber (b : Byte) : String :=
  String.ofList (if h : b.toNat < 16 then [all.get ⟨b.toNat, h⟩] else ofByte b)

end Digits

theorem Hex.digit_eq : ∀ n, digit n = Digits.all.get n.toFin := by decide

theorem Hex.ofByte_eq : ∀ b, ofByte b = Digits.ofByte b := by decide +kernel

theorem Hex.text_eq (bytes : List Byte) : text bytes = Digits.ofBytes bytes := by
  rw [text, encode, funext ofByte_eq, Digits.ofBytes]

theorem Hex.nibbleText_eq (nibbles : List Nibble) :
    nibbleText nibbles = Digits.ofNibbles nibbles := by
  rw [nibbleText, funext digit_eq, Digits.ofNibbles]

/-- The character whose code point is the byte. -/
def Byte.char (b : Byte) : Char := Char.ofNat b.toNat

namespace Hex

/-! ## Digits that are read -/

/-- The character is a digit, in either case of letters. -/
def IsDigit (c : Char) : Prop := ∃ n, c.toLower = digit n

instance (c : Char) : Decidable (IsDigit c) :=
  inferInstanceAs (Decidable (∃ n, c.toLower = digit n))

theorem digit_lt : ∀ n, (digit n).toNat < 128 := by decide

theorem IsDigit.lt {c : Char} (h : IsDigit c) : c.toNat < 128 := by
  obtain ⟨n, digit⟩ := h
  by_cases capital : c.val ≥ 'A'.val ∧ c.val ≤ 'Z'.val
  · exact Nat.lt_of_le_of_lt (UInt32.le_iff_toNat_le.1 capital.2) (by decide)
  · have same : c.toLower = c := dif_neg capital
    rw [← same, digit]
    exact digit_lt n

theorem value?_eq_some_iff : ∀ {b : Byte} {n : Nibble},
    value? b = some n ↔ b.char.toLower = digit n := by
  decide +kernel

theorem value?_eq_none_iff {b : Byte} : value? b = none ↔ ¬ IsDigit b.char := by
  simp only [Option.eq_none_iff_forall_ne_some, ne_eq, value?_eq_some_iff, IsDigit, not_exists]

theorem exists_value?_eq_some {b : Byte} (h : IsDigit b.char) : ∃ n, value? b = some n :=
  h.imp fun _ digit => value?_eq_some_iff.2 digit

theorem value?_eq_none_of_le {b : Byte} (h : 128 ≤ b.toNat) : value? b = none := by
  simp only [value?]
  repeat rw [if_neg (by omega)]

/-! ## The bytes of a text -/

theorem utf8_cons (c : Char) (cs : List Char) : utf8 (c :: cs) = utf8 [c] ++ utf8 cs := by
  simp only [utf8, List.flatMap_cons, List.flatMap_nil, List.append_nil]

/-- A character of ASCII takes one byte, which stands for it. -/
theorem utf8_of_lt {c : Char} (h : c.toNat < 128) : ∃ b : Byte, utf8 [c] = [b] ∧ b.char = c := by
  refine ⟨BitVec.ofNat 8 c.toNat, ?_, ?_⟩
  · have le : c.val.toNat ≤ 127 := Nat.le_of_lt_succ h
    simp only [utf8, List.flatMap_cons, List.flatMap_nil, List.append_nil, String.utf8EncodeChar,
      if_pos le, List.map_cons, List.map_nil]
    rfl
  · rw [Byte.char, BitVec.toNat_ofNat, Nat.mod_eq_of_lt (by omega), Char.ofNat_toNat]

/-- The bytes of any other character begin with one that is outside of ASCII. -/
theorem utf8_of_le {c : Char} (h : 128 ≤ c.toNat) :
    ∃ (b : Byte) (rest : List Byte), utf8 [c] = b :: rest ∧ 128 ≤ b.toNat := by
  have lt : ¬ c.val.toNat ≤ 127 := Nat.not_le_of_lt h
  simp only [utf8, List.flatMap_cons, List.flatMap_nil, List.append_nil, String.utf8EncodeChar,
    if_neg lt]
  split
  · exact ⟨_, _, rfl, by simp; omega⟩
  · split
    · exact ⟨_, _, rfl, by simp; omega⟩
    · exact ⟨_, _, rfl, by simp; omega⟩

/-- The digits of a text take one byte each. -/
theorem map_char_utf8 {cs : List Char} (h : ∀ c ∈ cs, IsDigit c) :
    (utf8 cs).map Byte.char = cs := by
  induction cs with
  | nil => rfl
  | cons c cs ih =>
    obtain ⟨b, bytes, char⟩ := utf8_of_lt (h c List.mem_cons_self).lt
    rw [utf8_cons, bytes, List.map_append, ih fun c mem => h c (List.mem_cons_of_mem _ mem),
      List.map_cons, char]
    rfl

/-- A text whose bytes are digits consists of digits. -/
theorem isDigit_of_utf8 {cs : List Char} (h : ∀ b ∈ utf8 cs, IsDigit b.char) :
    ∀ c ∈ cs, IsDigit c := by
  intro c mem
  have own : ∀ b ∈ utf8 [c], IsDigit b.char := fun b hb =>
    h b (List.mem_flatMap.2 ⟨c, mem, by simpa [utf8] using hb⟩)
  by_cases ascii : c.toNat < 128
  · obtain ⟨b, bytes, char⟩ := utf8_of_lt ascii
    rw [← char]
    exact own b (bytes ▸ List.mem_cons_self)
  · obtain ⟨b, rest, bytes, le⟩ := utf8_of_le (Nat.le_of_not_lt ascii)
    exact absurd (own b (bytes ▸ List.mem_cons_self))
      (value?_eq_none_iff.1 (value?_eq_none_of_le le))

/-! ## Reading -/

/-- The byte is the first of the text that is no digit, and stands at that position. -/
def FirstBad (text : List Byte) (b : Byte) (position : Nat) : Prop :=
  ∃ front back, text = front ++ b :: back ∧ front.length = position
    ∧ (∀ a ∈ front, IsDigit a.char) ∧ ¬ IsDigit b.char

/-- The text is not the digits of bytes, and that is the first reason. -/
def Refused (text : List Byte) : Fault → Prop
  | .oddLength => text.length % 2 = 1
  | .badDigit b position => text.length % 2 = 0 ∧ FirstBad text b position

theorem digitAt_eq_ok {b : Byte} {n : Nibble} (h : value? b = some n) (position : Nat) :
    digitAt position b = .ok n := by
  rw [digitAt, h]

theorem digitAt_eq_error {b : Byte} (h : ¬ IsDigit b.char) (position : Nat) :
    digitAt position b = .error (.badDigit b position) := by
  rw [digitAt, value?_eq_none_iff.2 h]

/-- Digits are read to their end, if they make pairs. -/
theorem decodeFrom_digits : ∀ (position : Nat) (text : List Byte), text.length % 2 = 0 →
    (∀ b ∈ text, IsDigit b.char) → ∃ bytes, decodeFrom position text = .ok bytes
      ∧ (text.map Byte.char).map Char.toLower = encode bytes
  | _, [], _, _ => ⟨[], rfl, rfl⟩
  | _, [_], even, _ => by cases even
  | position, high :: low :: rest, even, digits => by
    obtain ⟨h, valueHigh⟩ := exists_value?_eq_some (digits high (by simp))
    obtain ⟨l, valueLow⟩ := exists_value?_eq_some (digits low (by simp))
    obtain ⟨bytes, read, lower⟩ := decodeFrom_digits (position + 2) rest
      ((Nat.add_mod_right _ 2).symm.trans even) fun b mem => digits b (by simp [mem])
    refine ⟨Byte.ofNibbles h l :: bytes, ?_, ?_⟩
    · rw [decodeFrom_pair valueHigh valueLow, read]
      rfl
    · simp only [List.map_cons, lower, value?_eq_some_iff.1 valueHigh,
        value?_eq_some_iff.1 valueLow, encode, List.flatMap_cons, ofByte, Byte.high_ofNibbles,
        Byte.low_ofNibbles, List.cons_append, List.nil_append]

/-- Reading pairs stops at the first byte that is no digit. -/
theorem decodeFrom_bad {b : Byte} (bad : ¬ IsDigit b.char) (back : List Byte) :
    ∀ (position : Nat) (front : List Byte), (front ++ b :: back).length % 2 = 0 →
      (∀ a ∈ front, IsDigit a.char) →
      decodeFrom position (front ++ b :: back) = .error (.badDigit b (position + front.length))
  | position, [], even, _ => by
    -- The pairs are full, so a byte follows.
    match back with
    | [] => cases even
    | low :: back =>
      rw [List.nil_append, decodeFrom, digitAt_eq_error bad]
      rfl
  | position, [high], _, digits => by
    obtain ⟨h, value⟩ := exists_value?_eq_some (digits high (by simp))
    rw [List.cons_append, List.nil_append, decodeFrom, digitAt_eq_ok value, digitAt_eq_error bad]
    rfl
  | position, high :: low :: front, even, digits => by
    obtain ⟨h, valueHigh⟩ := exists_value?_eq_some (digits high (by simp))
    obtain ⟨l, valueLow⟩ := exists_value?_eq_some (digits low (by simp))
    have rest := decodeFrom_bad bad back (position + 2) front
      ((Nat.add_mod_right _ 2).symm.trans even) fun a mem => digits a (by simp [mem])
    rw [List.cons_append, List.cons_append, decodeFrom_pair valueHigh valueLow, rest,
      List.length_cons, List.length_cons, Nat.add_assoc, Nat.add_comm 2]
    rfl

theorem decode_of_refused {text : List Byte} {fault : Fault} (h : Refused text fault) :
    decode text = .error fault := by
  cases fault with
  | oddLength =>
    have odd : text.length % 2 = 1 := h
    rw [decode, if_neg (by omega)]
  | badDigit b position =>
    obtain ⟨even, front, back, rfl, rfl, digits, bad⟩ := h
    rw [decode, if_pos even, decodeFrom_bad bad back 0 front even digits, Nat.zero_add]

theorem decode_digits {text : List Byte} (even : text.length % 2 = 0)
    (digits : ∀ b ∈ text, IsDigit b.char) :
    ∃ bytes, decode text = .ok bytes ∧ (text.map Byte.char).map Char.toLower = encode bytes := by
  rw [decode, if_pos even]
  exact decodeFrom_digits 0 text even digits

/-- A text that is not refused consists of pairs of digits. -/
theorem refused_or_digits (text : List Byte) :
    (∃ fault, Refused text fault) ∨ text.length % 2 = 0 ∧ ∀ b ∈ text, IsDigit b.char := by
  rcases Nat.mod_two_eq_zero_or_one text.length with even | odd
  · cases found : text.find? fun b => ¬ IsDigit b.char with
    | none => exact .inr ⟨even, fun b mem => by simpa using List.find?_eq_none.1 found b mem⟩
    | some b =>
      obtain ⟨bad, front, back, split, digits⟩ := List.find?_eq_some_iff_append.1 found
      exact .inl ⟨.badDigit b front.length, even, front, back, split, rfl,
        fun a mem => by simpa using digits a mem, by simpa using bad⟩
  · exact .inl ⟨.oddLength, odd⟩

theorem decode_eq_error_iff {text : List Byte} {fault : Fault} :
    decode text = .error fault ↔ Refused text fault := by
  refine ⟨fun h => ?_, decode_of_refused⟩
  rcases refused_or_digits text with ⟨other, refused⟩ | ⟨even, digits⟩
  · cases h.symm.trans (decode_of_refused refused)
    exact refused
  · obtain ⟨bytes, read, _⟩ := decode_digits even digits
    cases h.symm.trans read

/-! ## Letter case -/

theorem length_encode (bytes : List Byte) : (encode bytes).length = 2 * bytes.length := by
  induction bytes with
  | nil => rfl
  | cons b bytes ih =>
    rw [encode, List.flatMap_cons, List.length_append, ← encode, ih, List.length_cons, ofByte,
      List.length_cons, List.length_cons, List.length_nil]
    omega

theorem encode_inj {bytes other : List Byte} : encode bytes = encode other ↔ bytes = other := by
  refine ⟨fun h => ?_, congrArg encode⟩
  have read := decode_encode bytes
  rw [h, decode_encode] at read
  exact (Except.ok.inj read).symm

/-- What the digits of bytes are up to letter case consists of digits. -/
theorem isDigit_of_map_toLower {cs : List Char} {bytes : List Byte}
    (h : cs.map Char.toLower = encode bytes) : ∀ c ∈ cs, IsDigit c := by
  intro c mem
  have lower : c.toLower ∈ encode bytes := h ▸ List.mem_map_of_mem mem
  obtain ⟨b, _, digit⟩ := List.mem_flatMap.1 lower
  rcases List.mem_cons.1 digit with high | low
  · exact ⟨_, high⟩
  · exact ⟨_, List.mem_singleton.1 low⟩

/-- Exactly the digits of bytes are read, in either case of letters. -/
theorem decode_utf8_eq_ok_iff {cs : List Char} {bytes : List Byte} :
    decode (utf8 cs) = .ok bytes ↔ cs.map Char.toLower = encode bytes := by
  constructor
  · intro h
    rcases refused_or_digits (utf8 cs) with ⟨fault, refused⟩ | ⟨even, digits⟩
    · cases h.symm.trans (decode_of_refused refused)
    · obtain ⟨read, value, lower⟩ := decode_digits even digits
      cases h.symm.trans value
      rwa [map_char_utf8 (isDigit_of_utf8 digits)] at lower
  · intro h
    have digits := isDigit_of_map_toLower h
    have chars := map_char_utf8 digits
    have length : (utf8 cs).length = 2 * bytes.length := by
      rw [← length_encode, ← h, List.length_map, ← List.length_map, chars]
    obtain ⟨read, value, lower⟩ := decode_digits (by omega) fun b mem =>
      digits _ (chars ▸ List.mem_map_of_mem mem)
    rw [chars, h, encode_inj] at lower
    rw [value, lower]

end Hex

end WhiteBox
