import WhiteBox.Proofs.Command.Arguments
import WhiteBox.Proofs.Command.Report
import WhiteBox.Proofs.Exchange.Guard

/-!
# The answer to a request for an encoding

A run that shows an encoding names a wire by plain numbers.  The role of the wire and its encoding
are made from the numbers side by side, and for each kind of wire they belong together
(`Command.checks_deriveRole`).

So the run fails where the text of the seed is refused, and then where a number is too large, with
the first one in the order of the role's coordinates.  Otherwise it shows the shuffle of the role
with exactly these numbers, in either form (`Command.answer?_encoding`).
-/

namespace WhiteBox

namespace Command

/-! ## The role and the encoding of a wire -/

/-- The role of the wire, with the same numbers. -/
def WireRequest.role : WireRequest → RoleRequest
  | mask p s f => .mask p s f
  | tyi r p s => .tyi r p s
  | mbInverse r p s => .mbInverse r p s
  | xor r p g f => .xor r p g f
  | round r p f => .round r p f

/-- A wire is checked coordinate by coordinate.  Its role keeps the numbers, and the encoding that
is derived for it is the shuffle of this role. -/
theorem checks_deriveRole (ctx : KeyContext) (wire : WireRequest) :
    Checks wire.role.coordinates (deriveRole ctx wire) fun derived =>
      ∃ role, derived = (role, ctx.shuffle role) ∧ role.request = wire.role := by
  -- The derivation function of each arm unfolds to the shuffle of the role beside it.
  cases wire with
  | mask p s f =>
    refine .cons fun p hp => .cons fun s hs => .of_ok rfl ⟨_, rfl, ?_⟩
    rw [Role.request, hp, hs, WireRequest.role]
  | tyi r p s =>
    refine .cons fun r hr => .cons fun p hp => .cons fun s hs => .of_ok rfl ⟨_, rfl, ?_⟩
    rw [Role.request, hr, hp, hs, WireRequest.role]
  | mbInverse r p s =>
    refine .cons fun r hr => .cons fun p hp => .cons fun s hs => .of_ok rfl ⟨_, rfl, ?_⟩
    rw [Role.request, hr, hp, hs, WireRequest.role]
  | xor r p g f =>
    refine .cons fun r hr => .cons fun p hp => .cons fun g hg => .of_ok rfl ⟨_, rfl, ?_⟩
    rw [Role.request, hr, hp, hg, WireRequest.role]
  | round r p f =>
    refine .cons fun r hr => .cons fun p hp => .of_ok rfl ⟨_, rfl, ?_⟩
    rw [Role.request, hr, hp, WireRequest.role]

/-! ## Naming a wire by arguments -/

/-- The word for a surface. -/
def surfaceWord : Surface → String
  | .inside => "inside"
  | .outside => "outside"

theorem surface?_surfaceWord (f : Surface) : surface? (surfaceWord f) = some f := by
  cases f <;> decide

theorem isValue_surfaceWord (f : Surface) : isValue (surfaceWord f) = true := by
  cases f <;> decide

/-- The subcommand for the kind of a wire, and its options. -/
def wireWords : WireRequest → String × List (String × String)
  | .mask p s f => ("mask",
    [("position", toString p), ("sub-position", toString s), ("surface", surfaceWord f)])
  | .tyi r p s => ("tyi",
    [("round", toString r), ("position", toString p), ("sub-position", toString s)])
  | .mbInverse r p s => ("mb-inverse",
    [("round", toString r), ("position", toString p), ("sub-position", toString s)])
  | .xor r p g f => ("xor",
    [("round", toString r), ("position", toString p), ("gate", toString g),
      ("surface", surfaceWord f)])
  | .round r p f => ("round",
    [("round", toString r), ("position", toString p), ("surface", surfaceWord f)])

/-- The arguments that ask for the encoding of a wire. -/
def encodingArgs (seed : String) (json : Bool) (wire : WireRequest) : List String :=
  ("--seed-hex=" ++ seed) :: (if json then ["--json"] else []) ++
    (wireWords wire).1 :: optionArgs (wireWords wire).2

theorem read_wireWords (wire : WireRequest) :
    (valued ((wireWords wire).2.map Prod.fst)).read (optionArgs (wireWords wire).2) =
      some ⟨[], (wireWords wire).2.reverse, none⟩ := by
  refine read_valued ?_ ?_ ?_
  · cases wire <;>
      simp only [wireWords, List.forall_mem_cons, isValue_toString, isValue_surfaceWord,
        List.not_mem_nil, IsEmpty.forall_iff, implies_true, and_self]
  · cases wire <;> simp only [wireWords, List.map_cons, List.map_nil] <;> decide
  · cases wire <;> simp only [wireWords, List.map_cons, List.map_nil] <;> decide

/-- An option that was given a number carries the number. -/
theorem Matched.number?_eq_some {m : Matched} {name : String} {n : Nat}
    (given : m.value? name = some (toString n)) (fits : n < UInt64.size) :
    m.number? name = some n := by
  rw [number?, given]
  exact number?_toString fits

theorem Matched.surface?_eq_some {m : Matched} {f : Surface}
    (given : m.value? "surface" = some (surfaceWord f)) : m.surface? = some f := by
  rw [surface?, given]
  exact surface?_surfaceWord f

/-- A subcommand and its options name the wire they were written for. -/
theorem wire?_wireWords {wire : WireRequest}
    (fits : ∀ c ∈ wire.role.coordinates, c.2 < UInt64.size) :
    wire? (wireWords wire).1 (optionArgs (wireWords wire).2) = some wire := by
  have read := read_wireWords wire
  -- The options are looked up among those that were read.
  cases wire with
  | mask p s f =>
    obtain ⟨hp, hs⟩ : p < UInt64.size ∧ s < UInt64.size := by
      simpa [WireRequest.role, RoleRequest.coordinates] using fits
    refine (congrArg (· >>= _) read).trans ?_
    rw [Option.bind_eq_bind, Option.bind_some, Matched.number?_eq_some rfl hp,
      Matched.number?_eq_some rfl hs, Matched.surface?_eq_some rfl]
    rfl
  | tyi r p s | mbInverse r p s =>
    obtain ⟨hr, hp, hs⟩ : r < UInt64.size ∧ p < UInt64.size ∧ s < UInt64.size := by
      simpa [WireRequest.role, RoleRequest.coordinates] using fits
    refine (congrArg (· >>= _) read).trans ?_
    rw [Option.bind_eq_bind, Option.bind_some, Matched.number?_eq_some rfl hr,
      Matched.number?_eq_some rfl hp, Matched.number?_eq_some rfl hs]
    rfl
  | xor r p g f =>
    obtain ⟨hr, hp, hg⟩ : r < UInt64.size ∧ p < UInt64.size ∧ g < UInt64.size := by
      simpa [WireRequest.role, RoleRequest.coordinates] using fits
    refine (congrArg (· >>= _) read).trans ?_
    rw [Option.bind_eq_bind, Option.bind_some, Matched.number?_eq_some rfl hr,
      Matched.number?_eq_some rfl hp, Matched.number?_eq_some rfl hg,
      Matched.surface?_eq_some rfl]
    rfl
  | round r p f =>
    obtain ⟨hr, hp⟩ : r < UInt64.size ∧ p < UInt64.size := by
      simpa [WireRequest.role, RoleRequest.coordinates] using fits
    refine (congrArg (· >>= _) read).trans ?_
    rw [Option.bind_eq_bind, Option.bind_some, Matched.number?_eq_some rfl hr,
      Matched.number?_eq_some rfl hp, Matched.surface?_eq_some rfl]
    rfl

theorem readFrom_wireWords (wire : WireRequest) (m : Matched) :
    encodingGrammar.readFrom m ((wireWords wire).1 :: optionArgs (wireWords wire).2) =
      some ⟨m.switches, m.values, some ((wireWords wire).1, optionArgs (wireWords wire).2)⟩ := by
  have known : (wireWords wire).1 ∈ encodingGrammar.commands := by
    cases wire <;> simp [wireWords, encodingGrammar]
  rw [Grammar.readFrom, if_pos known]

theorem read_encodingArgs (seed : String) (json : Bool) (wire : WireRequest) :
    encodingGrammar.read (encodingArgs seed json wire) =
      some ⟨if json then ["json"] else [], [("seed-hex", seed)],
        some ((wireWords wire).1, optionArgs (wireWords wire).2)⟩ := by
  have attached : "--seed-hex=" ++ seed = "--" ++ "seed-hex" ++ "=" ++ seed := rfl
  have apart : encodingGrammar.Apart := by decide
  rw [Grammar.read, encodingArgs, attached, List.cons_append,
    Grammar.readFrom_attached apart (by decide) rfl rfl]
  cases json with
  | true =>
    have switch : IsName "json" := by decide
    exact (Grammar.readFrom_switch apart switch rfl rfl _).trans (readFrom_wireWords wire _)
  | false => exact readFrom_wireWords wire _

/-- The arguments that are written for a wire ask for its encoding. -/
theorem ofArgs?_encodingArgs {wire : WireRequest}
    (fits : ∀ c ∈ wire.role.coordinates, c.2 < UInt64.size) (seed : String) (json : Bool) :
    Request.ofArgs? ("encoding" :: encodingArgs seed json wire) =
      some (.encoding seed json wire) := by
  show (encodingGrammar.read (encodingArgs seed json wire) >>= _) = _
  rw [read_encodingArgs]
  show (do
    let named ← wire? (wireWords wire).1 (optionArgs (wireWords wire).2)
    pure (Request.encoding seed (decide ("json" ∈ if json then ["json"] else [])) named)) = _
  rw [wire?_wireWords fits]
  cases json <;> rfl

/-! ## The answer -/

/-- A run succeeds and shows a role with its label, and the tables of its shuffle, which undo each
other. -/
structure ShowsEncoding (json : Bool) (role : Role) (shuffle : NibbleShuffle)
    (outcome : Outcome) : Prop where
  code : outcome.code = 0
  stderr : outcome.stderr = ""
  stdout_json : json = true → encodingReader.text outcome.stdout.toList =
    .ok (role, Digits.ofBytes role.label.toList, shuffle.forward, shuffle.inverse)
  stdout_text : json = false → linesOf outcome.stdout =
    ["role: " ++ role.describe, "label: " ++ Digits.ofBytes role.label.toList,
      "forward: " ++ Digits.ofNibbles shuffle.forward.toList,
      "inverse: " ++ Digits.ofNibbles shuffle.inverse.toList]
  inverse : ∀ x, shuffle.inverse.lookup (shuffle.forward.lookup x) = x ∧
    shuffle.forward.lookup (shuffle.inverse.lookup x) = x

theorem showsEncoding_encodingReport (json : Bool) (role : Role) (shuffle : NibbleShuffle) :
    ShowsEncoding json role shuffle (shown (encodingReport role shuffle json)) where
  code := rfl
  stderr := rfl
  stdout_json := by
    rintro rfl
    exact text_encodingReport role shuffle
  stdout_text := by
    rintro rfl
    exact linesOf_encodingReport role shuffle
  inverse x := ⟨shuffle.inverse_forward x, shuffle.forward_inverse x⟩

/-- A run that was asked for an encoding succeeds exactly if the seed is accepted and all numbers
are in range.  It fails with the fault of the seed if there is one, and else with the first number
that is too large. -/
structure AnswersEncoding (seed : String) (json : Bool) (wire : WireRequest)
    (outcome : Outcome) : Prop where
  code_eq_zero_iff : outcome.code = 0 ↔
    (∃ bytes, SeedText.parse seed.toList = .ok bytes) ∧ wire.role.InRange
  seed_refused : ∀ fault, SeedText.parse seed.toList = .error fault → outcome = noSeed fault
  number_refused : ∀ bytes quantity value, SeedText.parse seed.toList = .ok bytes →
    wire.role.coordinates.find? (fun c => c.1.max < c.2) = some (quantity, value) →
      outcome = tooLarge "Error: " quantity.name value quantity.max
  shown : ∀ bytes, SeedText.parse seed.toList = .ok bytes → wire.role.InRange →
    ∃ role, role.request = wire.role ∧
      ShowsEncoding json role (KeyContext.shuffle ⟨bytes⟩ role) outcome

section

variable {seed : String} (entropy : List Byte) (json : Bool) (wire : WireRequest)

theorem run_encoding_of_error {fault : SeedText.Fault}
    (refused : SeedText.parse seed.toList = .error fault) :
    run entropy (.encoding seed json wire) = noSeed fault := by
  rw [run, runEncoding, context, refused, ← failed_seed]
  rfl

theorem run_encoding_of_ok {bytes : List Byte}
    (accepted : SeedText.parse seed.toList = .ok bytes) :
    run entropy (.encoding seed json wire) =
      match deriveRole ⟨bytes⟩ wire with
      | .ok (role, shuffle) => shown (encodingReport role shuffle json)
      | .error cause => failed (.build cause) := by
  rw [run, runEncoding, context, accepted, ok_bind]
  cases deriveRole ⟨bytes⟩ wire with
  | ok derived => exact ofResult_ok _
  | error cause => rfl

theorem answersEncoding_run :
    AnswersEncoding seed json wire (run entropy (.encoding seed json wire)) := by
  cases parsed : SeedText.parse seed.toList with
  | error fault =>
    rw [run_encoding_of_error entropy json wire parsed]
    refine ⟨⟨fun code => ?_, ?_⟩, ?_, ?_, ?_⟩
    · rw [← failed_seed] at code
      cases code
    · rintro ⟨⟨bytes, accepted⟩, -⟩
      cases parsed.symm.trans accepted
    · intro other refused
      cases parsed.symm.trans refused
      rfl
    · intro bytes quantity value accepted
      cases parsed.symm.trans accepted
    · intro bytes accepted
      cases parsed.symm.trans accepted
  | ok bytes =>
    rw [run_encoding_of_ok entropy json wire parsed]
    cases first : wire.role.coordinates.find? (fun c => c.1.max < c.2) with
    | some c =>
      have refusal : Coordinate.refusal? wire.role.coordinates = some (.outOfRange c.1 c.2) := by
        rw [Coordinate.refusal?, first]
        rfl
      rw [(checks_deriveRole ⟨bytes⟩ wire).eq_error refusal]
      have out : ¬ wire.role.InRange := fun inRange => by
        cases (Coordinate.refusal?_eq_none_iff.2 inRange).symm.trans refusal
      refine ⟨⟨fun code => ?_, fun h => absurd h.2 out⟩, ?_, ?_, fun _ _ inRange =>
        absurd inRange out⟩
      · cases code
      · intro fault refused
        cases parsed.symm.trans refused
      · intro _ quantity value _ found
        cases first.symm.trans found
        exact failed_build_outOfRange quantity value
    | none =>
      have refusal : Coordinate.refusal? wire.role.coordinates = none := by
        rw [Coordinate.refusal?, first]
        rfl
      obtain ⟨_, built, role, rfl, same⟩ := (checks_deriveRole ⟨bytes⟩ wire).exists_ok refusal
      have inRange : wire.role.InRange := Coordinate.refusal?_eq_none_iff.1 refusal
      rw [built]
      refine ⟨⟨fun _ => ⟨⟨bytes, parsed⟩, inRange⟩, fun _ => rfl⟩, ?_, ?_, ?_⟩
      · intro fault refused
        cases parsed.symm.trans refused
      · intro _ quantity value _ found
        cases first.symm.trans found
      · intro other accepted _
        cases parsed.symm.trans accepted
        exact ⟨role, same, showsEncoding_encodingReport json role _⟩

end

/-- Every run that asks for an encoding is answered, and the arguments that are written for a wire
ask for its encoding. -/
theorem answer?_encoding :
    (∀ seed json wire, (∀ c ∈ wire.role.coordinates, c.2 < UInt64.size) →
      Request.ofArgs? ("encoding" :: encodingArgs seed json wire) =
        some (.encoding seed json wire)) ∧
      ∀ entropy args seed json wire, Request.ofArgs? args = some (.encoding seed json wire) →
        ∃ outcome, answer? entropy args = some outcome ∧
          AnswersEncoding seed json wire outcome := by
  constructor
  · intro seed json wire fits
    exact ofArgs?_encodingArgs fits seed json
  · intro entropy args seed json wire asked
    refine ⟨_, ?_, answersEncoding_run entropy json wire⟩
    rw [answer?, asked]
    rfl

/-- Three requests for the output of half a round.  Both numbers of the first two are too large,
and the seed of the first one is no seed; the third one shows its role and the label. -/
theorem answer?_encoding_round :
    answer? [] ["encoding", "--seed-hex=1", "round", "--round", "255", "--position", "300",
        "--surface", "inside"] =
      some ⟨1, "", "Error: decode seed hex\n\nCaused by:\n    Odd number of digits\n"⟩ ∧
      answer? [] ["encoding", "--seed-hex= 16", "round", "--round", "255", "--position", "300",
        "--surface", "inside"] = some ⟨1, "", "Error: round 255 is out of range (max 254)\n"⟩ ∧
      ∃ outcome, answer? [] ["encoding", "--seed-hex= 16", "round", "--round", "1",
        "--position", "2", "--surface", "inside"] = some outcome ∧ outcome.code = 0 ∧
          "role: Round \x7b round: Round(1), position: NibblePos(2), surface: Inside \x7d" ∈
            linesOf outcome.stdout ∧
          "label: 52010200000000000000000000000000" ∈ linesOf outcome.stdout := by
  have accepted : SeedText.parse " 16".toList = .ok [0x16] := by decide
  refine ⟨?_, ?_, ?_⟩
  · have asked := answer?_encoding.1 "1" false (.round 255 300 .inside) (by decide)
    obtain ⟨outcome, answer, answers⟩ := answer?_encoding.2 [] _ _ _ _ asked
    have odd : SeedText.parse "1".toList = .error (.digits .oddLength) := by decide
    rw [answers.seed_refused _ odd] at answer
    exact answer
  · have asked := answer?_encoding.1 " 16" false (.round 255 300 .inside) (by decide)
    obtain ⟨outcome, answer, answers⟩ := answer?_encoding.2 [] _ _ _ _ asked
    rw [answers.number_refused _ .round 255 accepted (by decide)] at answer
    exact answer
  · have asked := answer?_encoding.1 " 16" false (.round 1 2 .inside) (by decide)
    obtain ⟨outcome, answer, answers⟩ := answer?_encoding.2 [] _ _ _ _ asked
    have inRange := Coordinate.refusal?_eq_none_iff.1
      (show Coordinate.refusal? (RoleRequest.round 1 2 .inside).coordinates = none by decide)
    obtain ⟨role, same, shows⟩ := answers.shown _ accepted inRange
    have role_eq : role = .round ⟨1, by decide⟩ ⟨2, by decide⟩ .inside := by
      cases role with
      | round r p f =>
        obtain ⟨round, position, rfl⟩ := RoleRequest.round.inj same
        obtain rfl : r = ⟨1, by decide⟩ := Coordinate.ext round
        obtain rfl : p = ⟨2, by decide⟩ := Coordinate.ext position
        rfl
      | _ => cases same
    have described : "role: " ++ role.describe =
        "role: Round \x7b round: Round(1), position: NibblePos(2), surface: Inside \x7d" := by
      rw [role_eq]
      decide
    have label : "label: " ++ Digits.ofBytes role.label.toList =
        "label: 52010200000000000000000000000000" := by
      rw [role_eq]
      decide
    refine ⟨outcome, answer, shows.code, ?_⟩
    rw [shows.stdout_text rfl, ← described, ← label]
    simp

end Command

end WhiteBox
