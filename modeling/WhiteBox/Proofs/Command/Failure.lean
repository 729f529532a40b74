import WhiteBox.Proofs.Command.SeedPlace
import WhiteBox.Proofs.Command.Table
import WhiteBox.Proofs.Keying.Failure
import WhiteBox.Proofs.Network.Mask

/-!
# Failures do not depend on the seed

The runs for two accepted seeds end alike, if all their draws return.  A run reads its arguments
up to the seed without looking at it (`Command.ofArgs?_fill`).  What it is asked for fails with
numbers that are too large, or not at all, and these are the same for both seeds
(`Command.run_withSeed`).

So the answers end alike (`Command.answer?_fill`), as the constructions of the library
themselves do (`KeyContext.sameFailures`).
-/

namespace WhiteBox.Command

/-- Both runs end with the same code and report the same failure, if any. -/
structure SameEnd (o o' : Outcome) : Prop where
  code : o.code = o'.code
  stderr : o.stderr = o'.stderr

theorem SameEnd.refl (o : Outcome) : SameEnd o o := ⟨rfl, rfl⟩

theorem sameEnd_shown (text text' : String) : SameEnd (shown text) (shown text') := ⟨rfl, rfl⟩

theorem ShowsTable.sameEnd {β γ : Type} {json : Bool} {table : ByteTable β} {table' : ByteTable γ}
    {digits : β → String} {digits' : γ → String} {o o' : Outcome}
    (h : ShowsTable json table digits o) (h' : ShowsTable json table' digits' o') : SameEnd o o' :=
  ⟨h.code.trans h'.code.symm, h.stderr.trans h'.stderr.symm⟩

theorem sameEnd_of_answersTable {ctx ctx' : KeyContext} {round position : Nat} {json : Bool}
    {o o' : Outcome} {kind : TableKind} (h : AnswersTable ctx round position json o kind)
    (h' : AnswersTable ctx' round position json o' kind) : SameEnd o o' := by
  cases kind with
  | xor => exact ShowsTable.sameEnd h h'
  | mask =>
    by_cases inRange : position ≤ 15
    · obtain ⟨_, -, shows⟩ := h.1 inRange
      obtain ⟨_, -, shows'⟩ := h'.1 inRange
      exact shows.sameEnd shows'
    · rw [h.2 (Nat.lt_of_not_le inRange), h'.2 (Nat.lt_of_not_le inRange)]
      exact .refl _
  | mixingInverse =>
    by_cases column : position / 4 ≤ 255
    · by_cases inRange : round ≤ 254
      · obtain ⟨_, _, -, -, shows⟩ := h.1 inRange column
        obtain ⟨_, _, -, -, shows'⟩ := h'.1 inRange column
        exact shows.sameEnd shows'
      · rw [h.2.2 column (Nat.lt_of_not_le inRange), h'.2.2 column (Nat.lt_of_not_le inRange)]
        exact .refl _
    · rw [h.2.1 (Nat.lt_of_not_le column), h'.2.1 (Nat.lt_of_not_le column)]
      exact .refl _

/-- The draws that a request needs return. -/
def RequestDraws (ctx : KeyContext) : Request → Prop
  | .version => True
  | .encoding _ _ _ => True
  | .table _ kind round position _ => TableDraws ctx round position kind
  | .check _ samples => ∀ sample < samples, ctx.HasMixings sample

section

variable {seed seed' : String} {bytes bytes' : List Byte}

theorem run_withSeed (accepted : SeedText.parse seed.toList = .ok bytes)
    (accepted' : SeedText.parse seed'.toList = .ok bytes') {request : Request}
    (draws : RequestDraws ⟨bytes⟩ request) (draws' : RequestDraws ⟨bytes'⟩ request)
    (entropy : List Byte) :
    SameEnd (run entropy (request.withSeed seed)) (run entropy (request.withSeed seed')) ∧
      ∀ given samples, request = .check given samples →
        run entropy (request.withSeed seed) = run entropy (request.withSeed seed') := by
  cases request with
  | version => exact ⟨.refl _, nofun⟩
  | encoding _ json wire =>
    refine ⟨?_, nofun⟩
    show SameEnd (run entropy (.encoding seed json wire)) (run entropy (.encoding seed' json wire))
    rw [run_encoding_of_ok entropy json wire accepted,
      run_encoding_of_ok entropy json wire accepted']
    have derived := checks_deriveRole ⟨bytes⟩ wire
    rcases derived.sameFailure (checks_deriveRole ⟨bytes'⟩ wire) with
      ⟨_, _, built, built'⟩ | ⟨cause, refused, refused'⟩
    · rw [built, built']
      exact sameEnd_shown _ _
    · rw [refused, refused']
      exact .refl _
  | table _ kind round position json =>
    refine ⟨?_, nofun⟩
    exact sameEnd_of_answersTable (answersTable_run accepted draws entropy)
      (answersTable_run accepted' draws' entropy)
  | check given samples =>
    have same : run entropy ((Request.check given samples).withSeed seed) =
        run entropy ((Request.check given samples).withSeed seed') := by
      cases given with
      | none => rfl
      | some _ =>
        exact (run_check accepted draws entropy).trans (run_check accepted' draws' entropy).symm
    exact ⟨same ▸ .refl _, fun _ _ _ => same⟩

theorem exists_check_of_ofArgs? {args : List String} {request : Request}
    (h : Request.ofArgs? ("check" :: args) = some request) :
    ∃ given samples, request = .check given samples := by
  obtain ⟨m, -, h⟩ := Option.bind_eq_some_iff.1 (show check? args = some request from h)
  obtain ⟨samples, -, h⟩ := Option.bind_eq_some_iff.1 h
  exact ⟨_, samples, (Option.some.inj h).symm⟩

/-- Two accepted seeds in the same place of the same arguments are answered alike. -/
theorem answer?_fill (accepted : SeedText.parse seed.toList = .ok bytes)
    (accepted' : SeedText.parse seed'.toList = .ok bytes') {command : String} {place : SeedPlace}
    (draws : ∀ request, Request.ofArgs? (command :: place.fill seed) = some request →
      RequestDraws ⟨bytes⟩ request ∧ RequestDraws ⟨bytes'⟩ request) (entropy : List Byte) :
    Option.Rel (fun o o' => SameEnd o o' ∧ (command = "check" → o = o'))
      (answer? entropy (command :: place.fill seed))
      (answer? entropy (command :: place.fill seed')) := by
  have fits := SeedText.isValue_of_parse accepted
  have asked := ofArgs?_fill fits fits command place
  have asked' := ofArgs?_fill fits (SeedText.isValue_of_parse accepted') command place
  rw [answer?, answer?, asked']
  cases found : Request.ofArgs? (command :: place.fill seed) with
  | none => exact .none
  | some request =>
    rw [found] at asked
    have same : request = request.withSeed seed := Option.some.inj asked
    obtain ⟨drawn, drawn'⟩ := draws request found
    obtain ⟨ends, whole⟩ := run_withSeed accepted accepted' drawn drawn' entropy
    rw [← same] at ends whole
    refine .some ⟨ends, ?_⟩
    rintro rfl
    obtain ⟨given, samples, checks⟩ := exists_check_of_ofArgs? found
    exact whole given samples checks

end

/-- Whatever fails for a seed fails for the same cause for any other, and the description of a
context tells only the length of its seed. -/
theorem failure_ignores_seed :
    (∀ a b : KeyContext, a.SameFailures b ∧
      (a.seed.length = b.seed.length → a.describe = b.describe)) ∧
      ∀ entropy command place seed seed' bytes bytes',
        SeedText.parse seed.toList = .ok bytes → SeedText.parse seed'.toList = .ok bytes' →
          (∀ request, Request.ofArgs? (command :: SeedPlace.fill place seed) = some request →
            RequestDraws ⟨bytes⟩ request ∧ RequestDraws ⟨bytes'⟩ request) →
              Option.Rel (fun o o' => SameEnd o o' ∧ (command = "check" → o = o'))
                (answer? entropy (command :: place.fill seed))
                (answer? entropy (command :: place.fill seed')) := by
  constructor
  · intro a b
    exact ⟨a.sameFailures b, KeyContext.describe_eq⟩
  · intro entropy command place seed seed' bytes bytes' accepted accepted' draws
    exact answer?_fill accepted accepted' draws entropy

theorem hasMixing_other : KeyContext.HasMixing ⟨[0x11]⟩ none ⟨4, by decide⟩ .byte :=
  ⟨2 * 0 + (0 : Fin 2), by
    rw [KeyContext.mixingStream, candidateAt_byte]
    decide +kernel⟩

theorem hasMixing_other_column :
    KeyContext.HasMixing ⟨[0x11]⟩ (some ⟨0, by decide⟩) ⟨0, by decide⟩ .word :=
  ⟨0, by
    rw [KeyContext.mixingStream, candidateAt_word]
    decide +kernel⟩

/-- For two seeds, a block mask whose second slot is out of range, and a table of the first
column. -/
theorem failure_ignores_seed_first :
    SeedText.parse "16".toList = .ok [0x16] ∧ SeedText.parse "11".toList = .ok [0x11] ∧
      SameFailure
        (KeyContext.blockMask ⟨[0x16]⟩ ⟨5, by decide⟩ .inside fun i => if i = 1 then 256 else 4)
        (KeyContext.blockMask ⟨[0x11]⟩ ⟨5, by decide⟩ .inside fun i => if i = 1 then 256 else 4) ∧
      Option.Rel (fun o o' => SameEnd o o' ∧ ("table" = "check" → o = o'))
        (answer? [] ["table", "--seed-hex=16", "--kind", "mb-inverse", "--round", "0",
          "--position", "0"])
        (answer? [] ["table", "--seed-hex=11", "--kind", "mb-inverse", "--round", "0",
          "--position", "0"]) := by
  have accepted : SeedText.parse "16".toList = .ok [0x16] := by decide
  have accepted' : SeedText.parse "11".toList = .ok [0x11] := by decide
  have slots {bytes : List Byte} (four : KeyContext.HasMixing ⟨bytes⟩ none ⟨4, by decide⟩ .byte) :
      KeyContext.BlockMaskDraws ⟨bytes⟩ (fun i => if i = 1 then 256 else 4) .inside := by
    intro _ i _ slot (h : slot.val = if i = 1 then 256 else 4)
    by_cases second : i = 1
    · rw [if_pos second] at h
      exact absurd (h ▸ slot.le_max) (by decide)
    · rw [if_neg second] at h
      obtain rfl : slot = ⟨4, by decide⟩ := Coordinate.ext h
      exact four
  have fits : 0 < UInt64.size := by decide
  have asked := ofArgs?_tableArgs fits fits "16" .mixingInverse false
  refine ⟨accepted, accepted', ?_, ?_⟩
  · exact (failure_ignores_seed.1 ⟨[0x16]⟩ ⟨[0x11]⟩).1.blockMask _ _ _
      (slots KeyContext.hasMixing_four) (slots hasMixing_other)
  · let place : SeedPlace :=
      ⟨[], .attached, ["--kind", "mb-inverse", "--round", "0", "--position", "0"]⟩
    refine failure_ignores_seed.2 [] "table" place "16" "11" _ _ accepted accepted' ?_
    intro request found
    cases asked.symm.trans found
    exact ⟨tableDraws_mixingInverse ⟨0, by decide⟩ ⟨0, by decide⟩ rfl hasMixings_first.column,
      tableDraws_mixingInverse ⟨0, by decide⟩ ⟨0, by decide⟩ rfl hasMixing_other_column⟩

end WhiteBox.Command
