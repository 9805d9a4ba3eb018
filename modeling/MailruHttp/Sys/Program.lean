import MailruHttp.Cmd.CommandLine
import MailruHttp.Sys.Isolation

/-! The program from its command line to the bytes at its peers. -/

namespace MailruHttp.Sys

open Library Cmd Server

universe u

section Start

variable {intended : ServerOptions} {spelled : List Written} {rest : List CString}
  {startup : Startup}

/-- A command line that asks for some options starts the server with them. -/
theorem options_of_line (ended : 0 ∉ intended.ip) (port : intended.port < 2 ^ 31)
    (threads : intended.threadPoolSize < 2 ^ 32)
    (asked : (spelled.map Written.found).Perm (intended.asked ended))
    (line : startup.arguments = spelled.flatMap Written.words ++ rest)
    (noMore : getopt startup.posixlyCorrect rest = []) : startup.options = intended := by
  rw [Startup.options, line]
  exact parse_asked ended port threads asked noMore

/-- As many workers as are asked for, if an `int` can count them. -/
theorem workers_of_options (options : startup.options = intended)
    (threads : intended.threadPoolSize < 2 ^ 31) (kept : ∀ i, startup.init i = true) :
    startup.mWorkers.length = intended.threadPoolSize := by
  have count : startup.count = intended.threadPoolSize := by
    rw [Startup.count, options]
    exact toInt_of_fits _ (by omega) (by omega)
  rw [Startup.mWorkers_length kept, count, Int.toNat_natCast]

end Start

/-- Started with a command line for some options, with numbers that an `int` holds, on
a machine where every signal of a worker can be made, the program has as many workers
as it was asked for and, if that is one at least, drops no client it has accepted. In
every run a client whose file is healthy is sent at once a whole message exactly when
it is all of its answer, and then it is the one that its bytes ask for, from the
directory that the command line names; nothing more arrives after that. -/
theorem program_serves (Socket : Type u) [DecidableEq Socket] {intended : ServerOptions}
    (ended : 0 ∉ intended.ip) (port : intended.port < 2 ^ 31)
    (threads : intended.threadPoolSize < 2 ^ 31) {spelled : List Written}
    (asked : (spelled.map Written.found).Perm (intended.asked ended)) {rest : List CString}
    {startup : Startup} (line : startup.arguments = spelled.flatMap Written.words ++ rest)
    (noMore : getopt startup.posixlyCorrect rest = []) (kept : ∀ i, startup.init i = true) :
    startup.mWorkers.length = intended.threadPoolSize ∧
    ∀ history whole,
      Run (WholeStep startup.options.toOptions startup.started)
        (.initial Socket startup.mWorkers.length) history whole →
      (0 < intended.threadPoolSize → ∀ client ∈ whole.pool.passed,
        whole.pool.Holds client ∨ ∃ i, whole.loop client = some i) ∧
      ∀ client, HealthyLookup intended.directory (readCalls (historyOf client history)) →
        let effects := emitted startup.options.toOptions (historyOf client history)
        (∀ message, complete (sentAtOnce effects) = some message ↔
          ∃ buf, written effects = [buf] ∧ sentAtOnce effects = offered buf ∧
            Replies intended.directory (readCalls (historyOf client history)) message) ∧
        ∀ text, Arrives (whole.handles client) effects text →
          sentAtOnce effects = (written effects).flatMap offered → text = sentAtOnce effects := by
  have options := options_of_line ended port (by omega) asked line noMore
  have workers := workers_of_options options threads kept
  refine ⟨workers, fun history whole run => ⟨fun positive client passed => ?_, ?_⟩⟩
  · have joined := joined_reachable ⟨history, run⟩
    rw [← workers] at positive
    cases loop : whole.loop client with
    | none => exact .inl (joined.holds positive passed loop)
    | some i => exact .inr ⟨i, rfl⟩
  · intro client healthy
    have own := client_run run client
    have lived := lived_run own
    obtain ⟨sound, bounded⟩ := ledger_run own
    rw [options] at lived bounded ⊢
    exact ⟨lived.sends healthy, fun text => lived.arrives healthy sound bounded⟩

/-- The defaults, two of them attached, before a `--`. -/
theorem program_serves_defaults :
    ∃ startup : Startup, startup.arguments.length = 7 ∧ startup.mWorkers.length = 10 := by
  let spelled : List Written :=
    [⟨byte 'h', ⟨bytes "127.0.0.1", by decide⟩, true, by decide, by decide⟩,
      ⟨byte 'p', ⟨digits 80, Server.not_mem_digits (by decide)⟩, false, by decide, by decide⟩,
      ⟨byte 't', ⟨digits 10, Server.not_mem_digits (by decide)⟩, false, by decide, by decide⟩,
      ⟨byte 'd', ⟨bytes ".", by decide⟩, true, by decide, by decide⟩]
  let startup : Startup := { arguments := spelled.flatMap Written.words ++ [⟨bytes "--", by decide⟩] }
  have asked : (spelled.map Written.found).Perm
      (ServerOptions.asked {} (by decide)) := List.Perm.refl _
  have line : startup.arguments = spelled.flatMap Written.words ++ [⟨bytes "--", by decide⟩] := rfl
  have serves := program_serves Nat (by decide) (by decide) (by decide) asked line
    (by rw [getopt]; rfl) fun _ => rfl
  exact ⟨startup, rfl, serves.1⟩

end MailruHttp.Sys
