import WhiteBox.Proofs.Command.Arguments
import WhiteBox.Proofs.Command.Report
import WhiteBox.Proofs.Network.Check

/-!
# The answer to a check

A run with the arguments `check --seed-hex H --samples N` reads both options, since an
accepted text of a seed cannot be taken for an option (`SeedText.isValue_of_parse`) and a
number reads back from its digits (`number?_toString`).  The check it asks for finds nothing
wrong, so the run ends with the number of samples as its whole answer.
-/

namespace WhiteBox.Command

theorem ofArgs?_check {seed : String} {samples : Nat} (value : isValue seed = true)
    (fits : samples < UInt64.size) :
    Request.ofArgs? ["check", "--seed-hex", seed, "--samples", toString samples] =
      some (.check (some seed) samples) := by
  have values : ∀ o ∈ [("seed-hex", seed), ("samples", toString samples)], isValue o.2 = true :=
    List.forall_mem_cons.2 ⟨value, List.forall_mem_singleton.2 (isValue_toString samples)⟩
  have read : (valued ["seed-hex", "samples"]).read
      ["--seed-hex", seed, "--samples", toString samples] =
        some ⟨[], [("samples", toString samples), ("seed-hex", seed)], none⟩ :=
    read_valued values (show ∀ name ∈ ["seed-hex", "samples"], IsName name by decide)
      (show ["seed-hex", "samples"].Nodup by decide)
  show check? _ = _
  rw [check?, read]
  show (do
    let samples ← number? (toString samples)
    pure (Request.check (some seed) samples) : Option Request) = _
  rw [number?_toString fits]
  rfl

theorem run_check {bytes : List Byte} {seed : String} {samples : Nat}
    (accepted : SeedText.parse seed.toList = .ok bytes)
    (draws : ∀ sample < samples, KeyContext.HasMixings ⟨bytes⟩ sample) (entropy : List Byte) :
    run entropy (.check (some seed) samples) = shown s!"ok: {samples} samples\n" := by
  show Outcome.ofResult "" (context seed >>= fun ctx => runCheck ctx samples) = _
  rw [context, accepted, ok_bind, runCheck, NetworkCheck.check_eq_ok draws]
  exact ofResult_ok _

/-- A check of an accepted seed answers the number of samples, and nothing else, if all its
draws return. -/
theorem answer?_check (entropy : List Byte) {bytes : List Byte} {seed : String} {samples : Nat}
    (accepted : SeedText.parse seed.toList = .ok bytes) (fits : samples < UInt64.size)
    (draws : ∀ sample < samples, KeyContext.HasMixings ⟨bytes⟩ sample) :
    answer? entropy ["check", "--seed-hex", seed, "--samples", toString samples] =
        some ⟨0, s!"ok: {samples} samples\n", ""⟩ ∧
      ∀ sample < samples, NetworkCheck.checkSample ⟨bytes⟩ sample = .ok () := by
  refine ⟨?_, fun sample h => NetworkCheck.checkSample_eq_ok (draws sample h)⟩
  rw [answer?, ofArgs?_check (SeedText.isValue_of_parse accepted) fits]
  exact congrArg some (run_check accepted draws entropy)

theorem answer?_check_one :
    SeedText.parse "16".toList = .ok [0x16] ∧ 1 < UInt64.size ∧
      (∀ sample < 1, KeyContext.HasMixings ⟨[0x16]⟩ sample) ∧
      answer? [] ["check", "--seed-hex", "16", "--samples", "1"] =
        some ⟨0, "ok: 1 samples\n", ""⟩ := by
  have accepted : SeedText.parse "16".toList = .ok [0x16] := by decide
  have fits : 1 < UInt64.size := by decide
  have draws : ∀ sample < 1, KeyContext.HasMixings ⟨[0x16]⟩ sample := by
    intro sample h
    obtain rfl := Nat.lt_one_iff.1 h
    exact hasMixings_first
  have answer := (answer?_check [] accepted fits draws).1
  have digits : toString 1 = "1" := rfl
  rw [digits] at answer
  exact ⟨accepted, fits, draws, answer⟩

end WhiteBox.Command
