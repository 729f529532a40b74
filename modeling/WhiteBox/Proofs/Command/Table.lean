import WhiteBox.Proofs.Command.Check
import WhiteBox.Proofs.Command.Encoding
import WhiteBox.Proofs.Draw
import WhiteBox.Proofs.Matrix.Bytes

/-!
# The answer to a request for a table

A run that shows a table is given a round and a position, and each kind of table reads its own
part of them.  The table of an XOR gate reads neither.  A mask reads the position, which has to
name a byte of the state.  An inverse mixing table reads the round, and the position twice: a
quarter of it is the column and the rest is the row, so the row is always in range.

The four tables of a column add up to the inverse of its mixing bijection
(`Command.sum_mixingInverse_tables`).  The bijection was drawn invertible, so an inverse mixing
table is never refused for want of an inverse (`Command.runTable_ne_mixingInverseTable`).
-/

namespace WhiteBox.Command

/-! ## Asking for a table -/

/-- The word for a kind of table. -/
def tableWord : TableKind → String
  | .xor => "xor"
  | .mask => "mask"
  | .mixingInverse => "mb-inverse"

/-- The arguments that ask for a table. -/
def tableArgs (seed : String) (kind : TableKind) (round position : Nat) (json : Bool) :
    List String :=
  ("--seed-hex=" ++ seed) :: optionArgs [("kind", tableWord kind), ("round", toString round),
    ("position", toString position)] ++ if json then ["--json"] else []

theorem read_tableArgs (seed : String) (kind : TableKind) (round position : Nat) (json : Bool) :
    tableGrammar.read (tableArgs seed kind round position json) =
      some ⟨if json then ["json"] else [], [("position", toString position),
        ("round", toString round), ("kind", tableWord kind), ("seed-hex", seed)], none⟩ := by
  have attached : "--seed-hex=" ++ seed = "--" ++ "seed-hex" ++ "=" ++ seed := rfl
  have apart : tableGrammar.Apart := by decide
  have word : isValue (tableWord kind) = true := by cases kind <;> decide
  have values : ∀ o ∈ [("kind", tableWord kind), ("round", toString round),
      ("position", toString position)], isValue o.2 = true := by
    simp only [List.forall_mem_cons, isValue_toString, word, List.not_mem_nil,
      IsEmpty.forall_iff, implies_true, and_self]
  have known : ∀ name ∈ ["kind", "round", "position"], IsName name ∧
      tableGrammar.options.lookup name = some .value := by decide
  have distinct : (["kind", "round", "position"] ++ ["seed-hex"]).Nodup := by decide
  have first : Matched.empty.addValue "seed-hex" seed = some ⟨[], [("seed-hex", seed)], none⟩ := rfl
  rw [Grammar.read, tableArgs, attached, List.cons_append,
    Grammar.readFrom_attached apart (by decide) rfl first,
    Grammar.readFrom_options (m := ⟨[], [("seed-hex", seed)], none⟩) apart values known distinct]
  cases json with
  | true =>
    have switch : IsName "json" := by decide
    exact (Grammar.readFrom_switch apart switch rfl rfl []).trans rfl
  | false => rfl

theorem ofArgs?_tableArgs {round position : Nat} (hr : round < UInt64.size)
    (hp : position < UInt64.size) (seed : String) (kind : TableKind) (json : Bool) :
    Request.ofArgs? ("table" :: tableArgs seed kind round position json) =
      some (.table seed kind round position json) := by
  have word : tableKind? (tableWord kind) = some kind := by cases kind <;> decide
  show (tableGrammar.read (tableArgs seed kind round position json) >>= _) = _
  rw [read_tableArgs]
  show (do
    let kind ← tableKind? (tableWord kind)
    pure (Request.table seed kind (← number? (toString round)) (← number? (toString position))
      (decide ("json" ∈ if json then ["json"] else [])))) = _
  rw [word, number?_toString hr, number?_toString hp]
  cases json <;> rfl

/-! ## The answer -/

/-- A run succeeds and shows the digits of an entry for each byte, in order. -/
structure ShowsTable {β : Type} (json : Bool) (table : ByteTable β) (digits : β → String)
    (outcome : Outcome) : Prop where
  code : outcome.code = 0
  stderr : outcome.stderr = ""
  stdout_json : json = true → tableReader.text outcome.stdout.toList =
    .ok (Vector.ofFn fun i => digits (table (.ofFin i)))
  stdout_text : json = false → linesOf outcome.stdout =
    List.ofFn fun i => Digits.ofBytes [.ofFin i] ++ ": " ++ digits (table (.ofFin i))

theorem showsTable_tableReport {β : Type} (json : Bool) (parameters : Json) (table : ByteTable β)
    {entryText digits : β → String} (same : ∀ entry, entryText entry = digits entry)
    (each : ∀ entry, OneLine (entryText entry).toList) :
    ShowsTable json table digits (shown (tableReport parameters table entryText json)) where
  code := rfl
  stderr := rfl
  stdout_json := by
    rintro rfl
    rw [shown, text_tableReport, funext same]
  stdout_text := by
    rintro rfl
    rw [shown, linesOf_tableReport parameters table entryText each, funext same]

theorem showsTable_xor (json : Bool) :
    ShowsTable json xorTable Digits.ofNumber
      (shown (tableReport xorTableJson xorTable xorEntryText json)) :=
  showsTable_tableReport json _ _ xorEntryText_eq oneLine_xorEntryText

/-- Entries of several bytes are shown by the digits of the bytes. -/
theorem showsTable_bytes {k : Nat} (json : Bool) (parameters : Json)
    (table : ByteTable (Vector Byte k)) :
    ShowsTable json table (Digits.ofBytes ·.toList)
      (shown (tableReport parameters table bytesEntry json)) :=
  showsTable_tableReport json parameters table bytesEntry_eq fun _ => Hex.oneLine_text _

/-- The first byte of the state. -/
def origin : BytePos := ⟨0, Nat.zero_le _⟩

/-- The row of a position, which is always in range. -/
def rowOf (position : Nat) : MixingRow :=
  ⟨position % 4, Nat.le_of_lt_succ (Nat.mod_lt position (by decide))⟩

/-- The draws that a kind of table needs return. -/
def TableDraws (ctx : KeyContext) (round position : Nat) : TableKind → Prop
  | .xor => True
  | .mask => ctx.HasMixing none origin .block
  | .mixingInverse => ∀ (r : Round) (column : BytePos), r.val = round →
    column.val = position / 4 → ctx.HasMixing (some r) column .word

theorem tableDraws_mixingInverse {ctx : KeyContext} (round : Round) (column : BytePos)
    {position : Nat} (place : position / 4 = column.val)
    (h : ctx.HasMixing (some round) column .word) :
    TableDraws ctx round.val position .mixingInverse := by
  intro r c hr hc
  obtain rfl : r = round := Coordinate.ext hr
  obtain rfl : c = column := Coordinate.ext (hc.trans place)
  exact h

/-- Which table is shown where the numbers are in range, and which number is refused where they
are not.  The entries of an XOR gate are numbers, those of the other tables are bytes. -/
def AnswersTable (ctx : KeyContext) (round position : Nat) (json : Bool) (outcome : Outcome) :
    TableKind → Prop
  | .xor => ShowsTable json xorTable Digits.ofNumber outcome
  | .mask =>
    (∀ h : position ≤ 15, ∃ mask, ctx.mixingBijection .block none origin = .ok mask ∧
      ShowsTable json (MaskTable.mk mask ⟨position, h⟩).table (Digits.ofBytes ·.toList) outcome) ∧
    (15 < position → outcome =
      tooLarge "Error: build mask table\n\nCaused by:\n    " "mask table position" position 15)
  | .mixingInverse =>
    (∀ (hr : round ≤ 254) (hc : position / 4 ≤ 255), ∃ mixing inverse,
      ctx.mixingBijection .word (some ⟨round, hr⟩) ⟨position / 4, hc⟩ = .ok mixing ∧
      mixing.invert? = some inverse ∧
      ShowsTable json (MixingInverseTable.mk inverse (rowOf position)).table
        (Digits.ofBytes ·.toList) outcome) ∧
    (255 < position / 4 → outcome = tooLarge "Error: " "byte position" (position / 4) 255) ∧
    (position / 4 ≤ 255 → 254 < round → outcome = tooLarge "Error: " "round" round 254)

section

variable {seed : String} {bytes : List Byte} {json : Bool}

theorem run_xorTable (accepted : SeedText.parse seed.toList = .ok bytes) (entropy : List Byte)
    (round position : Nat) :
    run entropy (.table seed .xor round position json) =
      shown (tableReport xorTableJson xorTable xorEntryText json) := by
  rw [run, runTable, context, accepted, ok_bind]
  exact ofResult_ok _

theorem run_maskTable (accepted : SeedText.parse seed.toList = .ok bytes) {mask : Matrix 128}
    (drawn : KeyContext.mixingBijection ⟨bytes⟩ .block none origin = .ok mask)
    (entropy : List Byte) (round position : Nat) :
    run entropy (.table seed .mask round position json) =
      match MaskTable.build mask position with
      | .ok t => shown (tableReport t.toJson t.table bytesEntry json)
      | .error cause => failed (.maskTable cause) := by
  have first : Coordinate.ofNat .bytePosition 0 = .ok origin := Coordinate.ofNat_of_le _
  rw [run, runTable, context, accepted, ok_bind]
  dsimp only
  rw [first, building, ok_bind, drawn, building, ok_bind]
  cases MaskTable.build mask position with
  | ok t =>
    rw [building, ok_bind]
    exact ofResult_ok _
  | error cause => rfl

theorem run_mixingInverseTable_of_column (accepted : SeedText.parse seed.toList = .ok bytes)
    {round position : Nat} (large : 255 < position / 4) (entropy : List Byte) :
    run entropy (.table seed .mixingInverse round position json) =
      failed (.build (.outOfRange .bytePosition (position / 4))) := by
  have refused : Coordinate.ofNat .bytePosition (position / 4) = .error _ :=
    Coordinate.ofNat_eq_error_iff.2 ⟨large, rfl⟩
  rw [run, runTable, context, accepted, ok_bind]
  dsimp only
  rw [refused]
  rfl

theorem run_mixingInverseTable_of_round (accepted : SeedText.parse seed.toList = .ok bytes)
    {round position : Nat} (column : position / 4 ≤ 255) (large : 254 < round)
    (entropy : List Byte) :
    run entropy (.table seed .mixingInverse round position json) =
      failed (.build (.outOfRange .round round)) := by
  have first : Coordinate.ofNat .bytePosition (position / 4) = .ok _ :=
    Coordinate.ofNat_of_le column
  have refused : Coordinate.ofNat .round round = .error _ :=
    Coordinate.ofNat_eq_error_iff.2 ⟨large, rfl⟩
  rw [run, runTable, context, accepted, ok_bind]
  dsimp only
  rw [first, building, ok_bind, refused]
  rfl

theorem run_mixingInverseTable (accepted : SeedText.parse seed.toList = .ok bytes)
    {round position : Nat} (hr : round ≤ 254) (hc : position / 4 ≤ 255)
    {mixing inverse : Matrix 32}
    (drawn : KeyContext.mixingBijection ⟨bytes⟩ .word (some ⟨round, hr⟩) ⟨position / 4, hc⟩ =
      .ok mixing)
    (inverted : mixing.invert? = some inverse) (entropy : List Byte) :
    run entropy (.table seed .mixingInverse round position json) =
      shown (tableReport (MixingInverseTable.mk inverse (rowOf position)).toJson
        (MixingInverseTable.mk inverse (rowOf position)).table bytesEntry json) := by
  have first : Coordinate.ofNat .bytePosition (position / 4) = .ok ⟨position / 4, hc⟩ :=
    Coordinate.ofNat_of_le hc
  have second : Coordinate.ofNat .round round = .ok ⟨round, hr⟩ := Coordinate.ofNat_of_le hr
  have built : MixingInverseTable.ofMixing mixing (position % 4) = .ok ⟨inverse, rowOf position⟩ :=
    MixingInverseTable.ofMixing_eq_ok inverted (rowOf position).le_max
  rw [run, runTable, context, accepted, ok_bind]
  dsimp only
  rw [first, building, ok_bind, second, building, ok_bind, drawn, building, ok_bind, built,
    building, ok_bind]
  exact ofResult_ok _

theorem answersTable_run (accepted : SeedText.parse seed.toList = .ok bytes) {kind : TableKind}
    {round position : Nat} (draws : TableDraws ⟨bytes⟩ round position kind) (entropy : List Byte) :
    AnswersTable ⟨bytes⟩ round position json (run entropy (.table seed kind round position json))
      kind := by
  cases kind with
  | xor =>
    rw [run_xorTable accepted]
    exact showsTable_xor json
  | mask =>
    obtain ⟨mask, drawn⟩ := KeyContext.exists_mixingBijection_iff.2 draws
    rw [run_maskTable accepted drawn]
    refine ⟨fun h => ⟨mask, drawn, ?_⟩, fun large => ?_⟩
    · rw [MaskTable.build_eq_ok h]
      exact showsTable_bytes json _ _
    · rw [MaskTable.build, Coordinate.ofNat_eq_error_iff.2 ⟨large, rfl⟩]
      exact failed_maskTable_outOfRange _ _
  | mixingInverse =>
    refine ⟨fun hr hc => ?_, ?_, ?_⟩
    · obtain ⟨mixing, drawn⟩ :=
        KeyContext.exists_mixingBijection_iff.2 (draws ⟨round, hr⟩ ⟨_, hc⟩ rfl rfl)
      obtain ⟨inverse, inverted⟩ := KeyContext.exists_invert?_of_mixingBijection drawn
      refine ⟨mixing, inverse, drawn, inverted, ?_⟩
      rw [run_mixingInverseTable accepted hr hc drawn inverted]
      exact showsTable_bytes json _ _
    · intro large
      rw [run_mixingInverseTable_of_column accepted large]
      exact failed_build_outOfRange _ _
    · intro column large
      rw [run_mixingInverseTable_of_round accepted column large]
      exact failed_build_outOfRange _ _

end

/-! ## The tables of a column -/

/-- The four tables of a column add up to the inverse of its mixing bijection. -/
theorem sum_mixingInverse_tables {mixing inverse : Matrix 32}
    (inverted : mixing.invert? = some inverse) (column : Nat) (w : Column) :
    Bytes.sum ((List.finRange 4).map fun j : Fin 4 =>
      (MixingInverseTable.mk inverse (rowOf (4 * column + j))).table
        ((mixing.applyToBytes w).get j)) = w := by
  have row (j : Fin 4) : (rowOf (4 * column + j)).val = j := by
    show (4 * column + j.val) % 4 = j
    omega
  have part (j : Fin 4) : (MixingInverseTable.mk inverse (rowOf (4 * column + j))).table
      ((mixing.applyToBytes w).get j) =
        inverse.applyToBytes (Bytes.part (mixing.applyToBytes w) j) := by
    rw [MixingInverseTable.table, row]
    rfl
  simp only [part]
  exact Matrix.sum_invert?_part (k := 4) inverted w

/-- A failure with another trouble comes from behind a step that succeeds. -/
theorem exists_of_building_bind {α β : Type} {trouble : BuildError → Trouble}
    {x : Except BuildError α} {f : α → Except Trouble β} {e : Trouble}
    (failed : (building trouble x >>= f) = .error e) (other : ∀ cause, trouble cause ≠ e) :
    ∃ a, x = .ok a ∧ f a = .error e := by
  cases x with
  | ok a => exact ⟨a, rfl, failed⟩
  | error cause => exact absurd (Except.error.inj failed) (other cause)

/-- An inverse mixing table is never refused, since its row is in range and its bijection was
drawn invertible. -/
theorem runTable_ne_mixingInverseTable (seed : String) (kind : TableKind) (round position : Nat)
    (json : Bool) (cause : BuildError) :
    runTable seed kind round position json ≠ .error (.mixingInverseTable cause) := by
  intro failed
  have build (other : BuildError) : Trouble.build other ≠ .mixingInverseTable cause := by
    intro same
    cases same
  have maskTable (other : BuildError) : Trouble.maskTable other ≠ .mixingInverseTable cause := by
    intro same
    cases same
  cases parsed : SeedText.parse seed.toList with
  | error fault =>
    rw [runTable, context, parsed] at failed
    cases failed
  | ok bytes =>
    rw [runTable, context, parsed, ok_bind] at failed
    cases kind with
    | xor => cases failed
    | mask =>
      obtain ⟨_, -, failed⟩ := exists_of_building_bind failed build
      obtain ⟨_, -, failed⟩ := exists_of_building_bind failed build
      obtain ⟨_, -, failed⟩ := exists_of_building_bind failed maskTable
      cases failed
    | mixingInverse =>
      obtain ⟨_, -, failed⟩ := exists_of_building_bind failed build
      obtain ⟨_, -, failed⟩ := exists_of_building_bind failed build
      obtain ⟨mixing, drawn, failed⟩ := exists_of_building_bind failed build
      obtain ⟨inverse, inverted⟩ := KeyContext.exists_invert?_of_mixingBijection drawn
      have built : MixingInverseTable.ofMixing mixing (position % 4) = .ok _ :=
        MixingInverseTable.ofMixing_eq_ok inverted (rowOf position).le_max
      rw [built] at failed
      cases failed

/-! ## All tables of a seed -/

/-- How the runs that ask for a table of a seed are answered. -/
structure AnswersTables (seed : String) (ctx : KeyContext) : Prop where
  /-- The arguments that are written for a table ask for it. -/
  asked : ∀ kind round position json, round < UInt64.size → position < UInt64.size →
    Request.ofArgs? ("table" :: tableArgs seed kind round position json) =
      some (.table seed kind round position json)
  /-- Whatever asks for a table is answered. -/
  answered : ∀ entropy args kind round position json,
    Request.ofArgs? args = some (.table seed kind round position json) →
      TableDraws ctx round position kind →
        ∃ outcome, answer? entropy args = some outcome ∧
          AnswersTable ctx round position json outcome kind
  xor_ignores : ∀ entropy round position json,
    run entropy (.table seed .xor round position json) = run entropy (.table seed .xor 0 0 json)
  mask_ignores : ∀ entropy round position json,
    run entropy (.table seed .mask round position json) =
      run entropy (.table seed .mask 0 position json)
  /-- The entries that four runs show for the bytes of a mixed column add up to the column. -/
  column : ∀ (round : Round) (column : BytePos) (mixing : Matrix 32),
    ctx.mixingBijection .word (some round) column = .ok mixing →
      ∃ entries : Fin 4 → ByteTable Column,
        (∀ entropy json (j : Fin 4), ShowsTable json (entries j) (Digits.ofBytes ·.toList)
          (run entropy (.table seed .mixingInverse round.val (4 * column.val + j) json))) ∧
        ∀ w, Bytes.sum ((List.finRange 4).map fun j =>
          entries j ((mixing.applyToBytes w).get j)) = w
  never_singular : ∀ kind round position json cause,
    runTable seed kind round position json ≠ .error (.mixingInverseTable cause)

theorem answer?_table {seed : String} {bytes : List Byte}
    (accepted : SeedText.parse seed.toList = .ok bytes) : AnswersTables seed ⟨bytes⟩ where
  asked kind round position json hr hp := ofArgs?_tableArgs hr hp seed kind json
  answered entropy args kind round position json asked draws := by
    refine ⟨_, ?_, answersTable_run accepted draws entropy⟩
    rw [answer?, asked]
    rfl
  xor_ignores _ _ _ _ := rfl
  mask_ignores _ _ _ _ := rfl
  column round column mixing drawn := by
    obtain ⟨inverse, inverted⟩ := KeyContext.exists_invert?_of_mixingBijection drawn
    refine ⟨fun j => (MixingInverseTable.mk inverse (rowOf (4 * column.val + j))).table, ?_, ?_⟩
    · intro entropy json j
      have place : (4 * column.val + j) / 4 = column.val := by omega
      have inRange : (4 * column.val + j) / 4 ≤ 255 :=
        Nat.le_trans (Nat.le_of_eq place) column.le_max
      have same : (⟨(4 * column.val + j) / 4, inRange⟩ : BytePos) = column := Coordinate.ext place
      have again : KeyContext.mixingBijection ⟨bytes⟩ .word (some ⟨round.val, round.le_max⟩)
          ⟨(4 * column.val + j) / 4, inRange⟩ = .ok mixing := by
        rw [same]
        exact drawn
      rw [run_mixingInverseTable accepted round.le_max inRange again inverted]
      exact showsTable_bytes json _ _
    · exact sum_mixingInverse_tables inverted column.val
  never_singular := runTable_ne_mixingInverseTable seed

/-- A run that shows the table of an XOR gate, one that shows a table of the first column, and one
in which both numbers are too large. -/
theorem answer?_table_first :
    SeedText.parse "16".toList = .ok [0x16] ∧
      (∃ outcome, answer? [] ["table", "--seed-hex=16", "--kind", "xor", "--round", "999",
        "--position", "999"] = some outcome ∧ outcome.code = 0 ∧
          "3c: f" ∈ linesOf outcome.stdout) ∧
      (∃ outcome, answer? [] ["table", "--seed-hex=16", "--kind", "mb-inverse", "--round", "0",
        "--position", "3"] = some outcome ∧ outcome.code = 0 ∧
          (linesOf outcome.stdout).length = 256) ∧
      answer? [] ["table", "--seed-hex=16", "--kind", "mb-inverse", "--round", "255",
        "--position", "1024"] =
          some ⟨1, "", "Error: byte position 256 is out of range (max 255)\n"⟩ := by
  have accepted : SeedText.parse "16".toList = .ok [0x16] := by decide
  have answers := answer?_table accepted
  refine ⟨accepted, ?_, ?_, ?_⟩
  · have asked := answers.asked .xor 999 999 false (by decide) (by decide)
    obtain ⟨outcome, answer, shows⟩ := answers.answered [] _ _ _ _ _ asked trivial
    have line : Digits.ofBytes [.ofFin 0x3c] ++ ": " ++ Digits.ofNumber (xorTable (.ofFin 0x3c)) =
        "3c: f" := by decide
    refine ⟨outcome, answer, shows.code, ?_⟩
    rw [shows.stdout_text rfl, ← line]
    exact List.mem_ofFn.2 ⟨0x3c, rfl⟩
  · have asked := answers.asked .mixingInverse 0 3 false (by decide) (by decide)
    have draws : TableDraws ⟨[0x16]⟩ 0 3 .mixingInverse :=
      tableDraws_mixingInverse ⟨0, by decide⟩ ⟨0, by decide⟩ rfl hasMixings_first.column
    obtain ⟨outcome, answer, found, -⟩ := answers.answered [] _ _ _ _ _ asked draws
    obtain ⟨mixing, inverse, -, -, shows⟩ := found (by decide) (by decide)
    refine ⟨outcome, answer, shows.code, ?_⟩
    rw [shows.stdout_text rfl, List.length_ofFn]
  · have asked := answers.asked .mixingInverse 255 1024 false (by decide) (by decide)
    have draws : TableDraws ⟨[0x16]⟩ 255 1024 .mixingInverse := by
      intro r _ hr
      exact absurd (hr ▸ r.le_max) (by decide)
    obtain ⟨outcome, answer, -, refused, -⟩ := answers.answered [] _ _ _ _ _ asked draws
    rw [refused (by decide)] at answer
    exact answer

end WhiteBox.Command
