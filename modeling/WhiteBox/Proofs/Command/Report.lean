import WhiteBox.Command.Run
import WhiteBox.Proofs.Exchange.RoundTrip
import WhiteBox.Proofs.Text.Hex
import WhiteBox.Proofs.Text.Layout

/-!
# Reports are read back

A report has two forms.  The text form consists of lines, one for each part of a report on an
encoding (`Command.linesOf_encodingReport`) and one for each entry of a table
(`Command.linesOf_tableReport`).  The JSON form is a record with the same parts, which its reader
takes back (`Command.text_encodingReport`, `Command.text_tableReport`); the role of an encoding
is a value that reads as that role.

Labels, tables and entries are shown in `Digits`.  No part of a report holds a line break: numbers
are digits, and names are fixed words.
-/

namespace WhiteBox

/-! ## Reading a report -/

mutual

theorem Json.isWhole_fragment : ∀ v : Json, v.fragment.isWhole = true
  | .null => rfl
  | .natural _ => rfl
  | .text _ => rfl
  | .array items => areWhole_itemFragments items
  | .object fields => haveWhole_fieldFragments fields
  | .variant _ v => by
    show (v.fragment.isWhole && true) = true
    rw [isWhole_fragment v]
    rfl

theorem Json.areWhole_itemFragments : ∀ items : List Json,
    Fragment.areWhole (itemFragments items) = true
  | [] => rfl
  | v :: rest => Bool.and_eq_true_iff.2 ⟨isWhole_fragment v, areWhole_itemFragments rest⟩

theorem Json.haveWhole_fieldFragments : ∀ fields : List (String × Json),
    Fragment.haveWhole (fieldFragments fields) = true
  | [] => rfl
  | (_, v) :: rest => Bool.and_eq_true_iff.2 ⟨isWhole_fragment v, haveWhole_fieldFragments rest⟩

end

namespace Reader

/-- A text. -/
def string : Reader String
  | .text (some s) => .ok s
  | _ => .error .malformed

/-- Any whole value. -/
def skip : Reader Unit := fun v => if v.isWhole then .ok () else .error .malformed

theorem takes_string (s : String) : string.Takes (.text s) s := by
  intro w rewrites
  cases rewrites
  rfl

theorem takes_skip (v : Json) : skip.Takes v () := by
  intro w _
  exact if_pos w.isWhole_fragment

/-- A value is read from its pretty text with a line break behind it. -/
theorem Takes.pretty {α : Type} {read : Reader α} {v : Json} {a : α} (takes : read.Takes v a) :
    read.text (v.prettyText ++ "\n").toList = .ok a := by
  have text : (v.prettyText ++ "\n").toList = v.pretty ++ ['\n'] := by
    simp [Json.prettyText]
  rw [text, text_eq_ok, Document.ofText_eq v.spaced_pretty]
  exact ⟨rfl, takes v (Json.Rewrites.refl v)⟩

end Reader

/-! ## Parts without line breaks -/

theorem oneLine_number (n : Nat) : OneLine (toString n).toList := by
  have text : (toString n).toList = Nat.toDigits 10 n := Nat.toList_repr
  rw [text]
  rintro c member rfl
  cases Nat.isDigit_of_mem_toDigits (by decide) (by decide) member

@[simp] theorem Hex.digit_ne_newline (n : Nibble) : digit n ≠ '\n' := by
  revert n
  decide

@[simp] theorem Hex.oneLine_text (bytes : List Byte) : OneLine (text bytes).toList := by
  rw [text, String.toList_ofList, encode]
  induction bytes with
  | nil => simp
  | cons b bytes ih => simp [ofByte, ih]

@[simp] theorem Hex.oneLine_nibbleText (nibbles : List Nibble) :
    OneLine (nibbleText nibbles).toList := by
  rw [nibbleText, String.toList_ofList]
  induction nibbles with
  | nil => simp
  | cons n nibbles ih => simp [ih]

@[simp] theorem Coordinate.oneLine_describe {q : Quantity} (c : Coordinate q) :
    OneLine c.describe.toList := by
  have number := oneLine_number c.val
  cases q <;> simpa [describe, text, Quantity.typeName] using number

@[simp] theorem Surface.oneLine_name (f : Surface) : OneLine f.name.toList := by
  cases f <;> decide

@[simp] theorem MixingSize.oneLine_name (m : MixingSize) : OneLine m.name.toList := by
  cases m <;> decide

theorem oneLine_describeRecord {name : String} {parts : List (String × String)}
    (h : OneLine name.toList)
    (each : ∀ part ∈ parts, OneLine part.1.toList ∧ OneLine part.2.toList) :
    OneLine (describeRecord name parts).toList := by
  have items : ∀ item ∈ parts.map (fun part => part.1 ++ ": " ++ part.2), OneLine item.toList := by
    refine List.forall_mem_map.2 fun part member => ?_
    simpa using each part member
  have list := oneLine_intercalate (show OneLine ", ".toList by decide) items
  simpa [describeRecord, h] using list

@[simp] theorem Role.oneLine_describe (role : Role) : OneLine role.describe.toList := by
  cases role with
  | mixing m r p => cases r <;> exact oneLine_describeRecord (by decide) (by simp)
  | _ => exact oneLine_describeRecord (by decide) (by simp)

namespace Command

/-! ## Outcomes -/

/-- The outcome of a run that shows a text. -/
def shown (text : String) : Outcome := ⟨0, text, ""⟩

/-- The outcome of a run that fails. -/
def failed (trouble : Trouble) : Outcome := ⟨1, "", trouble.report⟩

/-- The outcome of a run that was given a number that is too large. -/
def tooLarge (before name : String) (value max : Nat) : Outcome :=
  ⟨1, "", before ++ name ++ " " ++ toString value ++ " is out of range (max " ++ toString max
    ++ ")\n"⟩

theorem message_outOfRange (q : Quantity) (value : Nat) :
    (BuildError.outOfRange q value).message =
      q.name ++ " " ++ toString value ++ " is out of range (max " ++ toString q.max ++ ")" :=
  rfl

theorem failed_build_outOfRange (q : Quantity) (value : Nat) :
    failed (.build (.outOfRange q value)) = tooLarge "Error: " q.name value q.max := by
  have close : ")" ++ "\n" = ")\n" := by decide
  rw [failed, Trouble.report, Trouble.texts, message_outOfRange, tooLarge, ← close]
  simp only [String.append_assoc]

theorem failed_maskTable_outOfRange (q : Quantity) (value : Nat) :
    failed (.maskTable (.outOfRange q value)) =
      tooLarge "Error: build mask table\n\nCaused by:\n    " q.name value q.max := by
  have before : "Error: " ++ ("build mask table" ++ "\n\nCaused by:\n    ") =
      "Error: build mask table\n\nCaused by:\n    " := by decide
  have close : ")" ++ "\n" = ")\n" := by decide
  rw [failed, Trouble.report, Trouble.texts, message_outOfRange, tooLarge, ← before, ← close]
  simp only [String.append_assoc]

/-- The outcome of a run that was given a text that is no seed. -/
def noSeed : SeedText.Fault → Outcome
  | .empty => ⟨1, "", "Error: seed must not be empty\n"⟩
  | .digits .oddLength =>
    ⟨1, "", "Error: decode seed hex\n\nCaused by:\n    Odd number of digits\n"⟩
  | .digits (.badDigit byte position) =>
    ⟨1, "", "Error: decode seed hex\n\nCaused by:\n    Invalid character "
      ++ SeedText.quotedByte byte ++ " at position " ++ toString position ++ "\n"⟩

theorem digitsMessage_badDigit (byte : Byte) (position : Nat) :
    SeedText.digitsMessage (.badDigit byte position) =
      "Invalid character " ++ SeedText.quotedByte byte ++ " at position " ++ toString position :=
  rfl

theorem failed_seed (fault : SeedText.Fault) : failed (.seed fault) = noSeed fault := by
  cases fault with
  | empty => rfl
  | digits fault =>
    cases fault with
    | oddLength => rfl
    | badDigit byte position =>
      have before : "Error: " ++ ("decode seed hex" ++ ("\n\nCaused by:\n    " ++
          "Invalid character ")) =
        "Error: decode seed hex\n\nCaused by:\n    Invalid character " := by decide
      rw [failed, Trouble.report, Trouble.texts, digitsMessage_badDigit, noSeed, ← before]
      simp only [String.append_assoc]

theorem ofResult_ok (text : String) : Outcome.ofResult "" (.ok text) = shown text := by
  rw [Outcome.ofResult, String.empty_append, shown]

/-! ## Encodings -/

/-- The role, the label and both tables. -/
def encodingReader : Reader (Role × String × Vector Nibble 16 × Vector Nibble 16) :=
  (Reader.record (.field "role" Role.reader none (.field "label" .string none
    (.field "forward" (.vector 16 (.word 4)) none
    (.field "inverse" (.vector 16 (.word 4)) none .none))))).map
    fun (role, label, forward, inverse, ()) => (role, label, forward, inverse)

theorem text_encodingReport (role : Role) (s : NibbleShuffle) :
    encodingReader.text (encodingReport role s true).toList =
      .ok (role, Digits.ofBytes role.label.toList, s.forward, s.inverse) := by
  rw [← Hex.text_eq]
  exact ((Reader.takes_record (.field role.takes (.field (Reader.takes_string _)
    (.field (Reader.takes_naturals s.forward) (.field (Reader.takes_naturals s.inverse) .none))))
    (by simp)).map _).pretty

theorem linesOf_encodingReport (role : Role) (s : NibbleShuffle) :
    linesOf (encodingReport role s false) =
      ["role: " ++ role.describe, "label: " ++ Digits.ofBytes role.label.toList,
        "forward: " ++ Digits.ofNibbles s.forward.toList,
        "inverse: " ++ Digits.ofNibbles s.inverse.toList] := by
  simp only [← Hex.text_eq, ← Hex.nibbleText_eq]
  refine linesOf_eq ?_ ?_
  · simp [encodingReport]
  · simp

/-! ## Tables -/

/-- A number in hexadecimal has no leading zero. -/
theorem xorEntryText_eq : ∀ entry, xorEntryText entry = Digits.ofNumber entry := by
  decide +kernel

theorem bytesEntry_eq {k : Nat} (entry : Vector Byte k) :
    bytesEntry entry = Digits.ofBytes entry.toList :=
  Hex.text_eq entry.toList

theorem oneLine_xorEntryText (entry : Byte) : OneLine (xorEntryText entry).toList := by
  revert entry
  decide +kernel

/-- The entries, whatever the parameters. -/
def tableReader : Reader (Vector String 256) :=
  (Reader.record (.field "table" .skip none
    (.field "entries" (.vector 256 .string) none .none))).map fun ((), entries, ()) => entries

variable {β : Type} (parameters : Json) (table : ByteTable β) (entryText : β → String)

theorem map_tabulate : table.tabulate.toList.map entryText =
    List.ofFn fun i => entryText (table (.ofFin i)) := by
  rw [ByteTable.tabulate, Vector.toList_ofFn, List.map_ofFn]
  rfl

theorem ofNat_range (n : Nat) (h : n ≤ 256) :
    (List.range n).map (BitVec.ofNat 8) = List.ofFn fun i : Fin n => .ofFin (i.castLE h) := by
  refine List.ext_getElem (by simp) fun i _ inRange => ?_
  rw [List.length_ofFn] at inRange
  simp only [List.getElem_map, List.getElem_range, List.getElem_ofFn]
  exact BitVec.eq_of_toNat_eq (Nat.mod_eq_of_lt (Nat.lt_of_lt_of_le inRange h))

theorem allBytes_eq : NetworkCheck.allBytes = List.ofFn BitVec.ofFin :=
  ofNat_range 256 (Nat.le_refl 256)

theorem zipWith_ofFn {α γ : Type} {n : Nat} (f : α → β → γ) (a : Fin n → α) (b : Fin n → β) :
    List.zipWith f (List.ofFn a) (List.ofFn b) = List.ofFn fun i => f (a i) (b i) :=
  List.ext_getElem (by simp) (by simp)

theorem text_tableReport :
    tableReader.text (tableReport parameters table entryText true).toList =
      .ok (Vector.ofFn fun i => entryText (table (.ofFin i))) := by
  have entries : table.tabulate.toList.map entryText =
      (Vector.ofFn fun i => entryText (table (.ofFin i))).toList := by
    rw [map_tabulate, Vector.toList_ofFn]
  rw [tableReport, entries]
  exact ((Reader.takes_record (.field (Reader.takes_skip parameters)
    (.field (Reader.takes_vector Reader.takes_string _) .none)) (by simp)).map _).pretty

theorem linesOf_tableReport (each : ∀ entry, OneLine (entryText entry).toList) :
    linesOf (tableReport parameters table entryText false) =
      List.ofFn fun i => Digits.ofBytes [.ofFin i] ++ ": " ++ entryText (table (.ofFin i)) := by
  simp only [← Hex.text_eq]
  let line (i : Fin 256) := Hex.text [.ofFin i] ++ ": " ++ entryText (table (.ofFin i))
  refine linesOf_eq ?_ fun text member => ?_
  · rw [tableReport, map_tabulate, allBytes_eq, zipWith_ofFn]
    show (String.join (List.ofFn ((· ++ "\n") ∘ line))).toList = _
    rw [← List.map_ofFn, String.toList_join, List.flatMap_map]
    simp only [String.toList_append]
    rfl
  · obtain ⟨i, rfl⟩ := List.mem_ofFn.1 member
    simp [each]

end Command

end WhiteBox
