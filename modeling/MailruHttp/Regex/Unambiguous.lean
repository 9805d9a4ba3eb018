import MailruHttp.Regex.Groups

/-! An input is divided among the calls of a chain in at most one way, and the
automaton matches it exactly when it is. -/

namespace MailruHttp.Regex

open Library

/-- A combinator that reads a front of the input reads no other one. -/
theorem word_unique {combinator : Combinator} {first second input : List UInt8}
    (firstIn : first ∈ combinator.language) (secondIn : second ∈ combinator.language)
    (firstLeads : first <+: input) (secondLeads : second <+: input) : first = second := by
  rw [combinator.language_eq] at firstIn secondIn
  exact front_unique firstIn secondIn firstLeads secondLeads

theorem reads_cons {call : Call} {calls : List Call} {e : UInt8} {input rest : List UInt8}
    {parts : List Part} (reads : Reads (call :: calls) e input parts rest) :
    ∃ word later, parts = (call, word) :: later ∧ word ∈ call.combinator.language ∧
      Reads calls e (consumed later ++ e :: rest) later rest ∧
      input = word ++ (consumed later ++ e :: rest) := by
  obtain ⟨same, spoken, split⟩ := reads
  cases parts with
  | nil => cases same
  | cons part later =>
    obtain ⟨rfl, others⟩ := List.cons.inj same
    obtain ⟨here, rest⟩ := spoken_cons.mp spoken
    refine ⟨part.2, later, rfl, here, ⟨others, rest, rfl⟩, ?_⟩
    rw [split, consumed_cons, List.append_assoc]

/-- The division of an input among the calls is determined. -/
theorem Reads.unique {calls : List Call} {e : UInt8} {input rest other : List UInt8}
    {parts others : List Part} (first : Reads calls e input parts rest)
    (second : Reads calls e input others other) : others = parts ∧ other = rest := by
  induction calls generalizing input parts others with
  | nil =>
    have none := List.map_eq_nil_iff.mp first.calls
    have nothing := List.map_eq_nil_iff.mp second.calls
    subst none nothing
    have tails := first.input.symm.trans second.input
    exact ⟨rfl, (List.cons.inj tails).2.symm⟩
  | cons call calls ih =>
    obtain ⟨word, later, rfl, spoken, inner, split⟩ := reads_cons first
    obtain ⟨text, after, rfl, spokenText, innerText, splitText⟩ := reads_cons second
    have same := word_unique spoken spokenText ⟨_, split.symm⟩ ⟨_, splitText.symm⟩
    subst same
    have left := List.append_cancel_left (split.symm.trans splitText)
    rw [← left] at innerText
    obtain ⟨rfl, rfl⟩ := ih inner innerText
    exact ⟨rfl, rfl⟩

theorem consumed_mem {parts : List Part} (spoken : Spoken parts) :
    consumed parts ∈ ((parts.map Prod.fst).map fun call => call.combinator.language).prod := by
  induction parts with
  | nil => exact rfl
  | cons part parts ih =>
    obtain ⟨here, rest⟩ := spoken_cons.mp spoken
    rw [consumed_cons, List.map_cons, List.map_cons, List.prod_cons]
    exact Language.mem_mul.mpr ⟨_, here, _, ih rest, rfl⟩

/-- An input that is divided among the calls of a chain is matched in full. -/
theorem Reads.full {calls : List Call} {e : UInt8} {input rest : List UInt8} {parts : List Part}
    (reads : Reads calls e input parts rest) :
    (Regex.chainVerdict calls e input).type = .mrtFull := by
  obtain ⟨rfl, spoken, split⟩ := reads
  refine (chainVerdict_full_iff ..).mpr ⟨consumed parts ++ [e], ?_, rest, ?_⟩
  · exact Language.mem_mul.mpr ⟨_, consumed_mem spoken, [e], rfl, rfl⟩
  · rw [split, List.append_assoc]
    rfl

/-- Whatever the chain, the automaton built for it matches exactly the inputs that
can be divided among its calls, and there is only one way to divide each of them. -/
theorem match_unambiguous (calls : List Call) (e : UInt8) :
    ∃ dfa, compile calls e = some dfa ∧
      (dfa.edges.length ≤ 2 ^ 31 → ∀ input, dfa.matchInt input = dfa.match input) ∧
      ∀ input, (∃ found, dfa.match input = some found ∧ found.type = .mrtFull) ↔
        ∃ parts rest, Reads calls e input parts rest ∧
          ∀ others other, Reads calls e input others other → others = parts ∧ other = rest := by
  obtain ⟨dfa, compiled, reports, runs⟩ := compile_match calls e
  refine ⟨dfa, compiled, fun narrow input => (runs narrow input).trans (reports input).symm,
    fun input => ⟨?_, ?_⟩⟩
  · rintro ⟨found, matched, full⟩
    rw [reports] at matched
    cases matched
    obtain ⟨parts, rest, reads⟩ := exists_reads full
    exact ⟨parts, rest, reads, fun _ _ second => reads.unique second⟩
  · rintro ⟨parts, rest, reads, -⟩
    exact ⟨_, reports input, reads.full⟩

end MailruHttp.Regex
