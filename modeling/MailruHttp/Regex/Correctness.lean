import MailruHttp.Regex.Compile

/-! Correctness of the builder and the matcher together: the verdict on any
input decides the language of the chain, and it is stable under extension. -/

namespace MailruHttp.Regex

open Library

theorem verdict_full_iff {read : Option Reading} :
    (verdict read).type = .mrtFull ↔ read.map (·.1.map Piece.segment) = some [] := by
  rcases read with _ | ⟨_ | ⟨piece, rest⟩, captures⟩ <;> simp [verdict]

theorem verdict_partial_iff {read : Option Reading} :
    (verdict read).type = .mrtPartial ↔
      ∃ segment rest, read.map (·.1.map Piece.segment) = some (segment :: rest) := by
  rcases read with _ | ⟨_ | ⟨piece, rest⟩, captures⟩ <;> simp [verdict]

theorem verdict_error_iff {read : Option Reading} :
    (verdict read).type = .mrtError ↔ read.map (·.1.map Piece.segment) = none := by
  rcases read with _ | ⟨_ | ⟨piece, rest⟩, captures⟩ <;> simp [verdict]

/-- Once the reader has finished or rejected, more input changes nothing. -/
theorem verdict_stable (reading : Reading) (input more : List UInt8)
    (decided : (verdict (reading.advances input)).type ≠ .mrtPartial) :
    verdict (reading.advances (input ++ more)) = verdict (reading.advances input) := by
  rw [Reading.advances_append]
  rcases read : reading.advances input with _ | ⟨_ | ⟨piece, rest⟩, captures⟩
  · rfl
  · simp
  · simp [read, verdict] at decided

section Verdict

variable (calls : List Call) (e : UInt8) (input : List UInt8)

/-- What the matcher of a compiled chain reports on an input. -/
def chainVerdict : MatchResult :=
  verdict (Reading.advances (pieces calls e, Captures.initial) input)

theorem pieces_ne_nil : pieces calls e ≠ [] := by simp [pieces]

/-- With `int`s as well, as long as one can number every state. -/
theorem compile_match : ∃ dfa, compile calls e = some dfa ∧
    (∀ input, dfa.match input = some (chainVerdict calls e input)) ∧
    (dfa.edges.length ≤ 2 ^ 31 → ∀ input, dfa.matchInt input = some (chainVerdict calls e input)) := by
  obtain ⟨dfa, compiled, implements⟩ := compile_implements calls e
  have nonempty := pieces_ne_nil calls e
  refine ⟨dfa, compiled, implements.match_eq (Ints.unbounded_hold _ _) nonempty, fun narrow => ?_⟩
  rw [implements.size] at narrow
  exact implements.match_eq (Ints.bits32_hold narrow (Nat.lt_of_succ_le narrow)) nonempty

theorem compile_length {dfa : DFA} (compiled : compile calls e = some dfa) :
    dfa.edges.length = (pieces calls e).length + 1 := by
  obtain ⟨made, same, implements⟩ := compile_implements calls e
  obtain rfl : dfa = made := Option.some.inj (compiled.symm.trans same)
  exact implements.size

theorem chainVerdict_full_iff :
    (chainVerdict calls e input).type = .mrtFull ↔ Accepts (callsLanguage calls e) input := by
  rw [chainVerdict, verdict_full_iff, Reading.advances_segments, advances_finished_iff,
    callsLanguage_eq]

theorem chainVerdict_partial_iff :
    (chainVerdict calls e input).type = .mrtPartial ↔
      ¬ Accepts (callsLanguage calls e) input ∧ Extendable (callsLanguage calls e) input := by
  rw [chainVerdict, verdict_partial_iff, Reading.advances_segments, advances_waiting_iff,
    callsLanguage_eq]

theorem chainVerdict_error_iff :
    (chainVerdict calls e input).type = .mrtError ↔ ¬ Extendable (callsLanguage calls e) input := by
  rw [chainVerdict, verdict_error_iff, Reading.advances_segments, callsLanguage_eq,
    extendable_iff, not_not]

theorem chainVerdict_stable (more : List UInt8)
    (decided : (chainVerdict calls e input).type ≠ .mrtPartial) :
    chainVerdict calls e (input ++ more) = chainVerdict calls e input :=
  verdict_stable _ input more decided

end Verdict

/-- Every chain of builder calls compiles to an automaton whose verdict is full
exactly on inputs with a front in the language of the chain, partial exactly
where only an extension has one, and error elsewhere. A full verdict and its
groups, and an error, survive every extension. The `int`s of the matcher do not
show unless there are more states than they can number. -/
theorem compile_correct (calls : List Call) (e : UInt8) :
    ∃ dfa, compile calls e = some dfa ∧
      (dfa.edges.length ≤ 2 ^ 31 → ∀ input, dfa.matchInt input = dfa.match input) ∧
      ∀ input, ∃ found, dfa.match input = some found ∧
      (found.type = .mrtFull ↔ ∃ front, front <+: input ∧ front ∈ callsLanguage calls e) ∧
      (found.type = .mrtPartial ↔
        (¬ ∃ front, front <+: input ∧ front ∈ callsLanguage calls e) ∧
          ∃ more front, front <+: input ++ more ∧ front ∈ callsLanguage calls e) ∧
      (found.type = .mrtError ↔
        (¬ ∃ front, front <+: input ∧ front ∈ callsLanguage calls e) ∧
          ¬ ∃ more front, front <+: input ++ more ∧ front ∈ callsLanguage calls e) ∧
      ∀ more, ∃ later, dfa.match (input ++ more) = some later ∧
        (found.type = .mrtError → later.type = .mrtError) ∧
        (found.type = .mrtFull → later = found) := by
  obtain ⟨dfa, compiled, reports, runs⟩ := compile_match calls e
  have accepts (word : List UInt8) : Accepts (callsLanguage calls e) word ↔
      ∃ front, front <+: word ∧ front ∈ callsLanguage calls e := by
    simp only [Accepts, and_comm]
  have extendable : Extendable (callsLanguage calls e) = fun word =>
      ∃ more front, front <+: word ++ more ∧ front ∈ callsLanguage calls e := by
    funext word
    simp only [Extendable, accepts]
  refine ⟨dfa, compiled, fun narrow input => (runs narrow input).trans (reports input).symm,
    fun input => ⟨_, reports input, ?_, ?_, ?_, fun more => ⟨_, reports _, ?_, ?_⟩⟩⟩
  · rw [chainVerdict_full_iff, accepts]
  · rw [chainVerdict_partial_iff, accepts, extendable]
  · rw [chainVerdict_error_iff, ← accepts]
    constructor
    · intro dead
      exact ⟨fun accepted => dead accepted.extendable, by rwa [extendable] at dead⟩
    · intro both
      rw [extendable]
      exact both.2
  · intro error
    rw [chainVerdict_stable calls e input more (by simp [error]), error]
  · intro full
    exact chainVerdict_stable calls e input more (by simp [full])

end MailruHttp.Regex
