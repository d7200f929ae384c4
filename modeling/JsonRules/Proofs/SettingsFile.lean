import JsonRules.Proofs.Arguments
import JsonRules.Proofs.ExitStatus

/-!
The settings file as flags. What a file states can be said by flags instead: the output format by
`--output`, unless that is given, the explanation by `--explain`, which only an evaluation has, and the
dates by `--parse-dates`.
-/
namespace JsonRules.CommandLine

/-- The command with its flag for an explanation, if it has one and if that is asked for. -/
def Command.explaining (on : Bool) : Command → Command
  | .eval rule data explain => .eval rule data (explain || on)
  | c => c

namespace Invocation

/-- The invocation without its settings file, and with the flags that say what the file states. -/
def stating (config : Config) (i : Invocation) : Invocation where
  flags := { i.flags with
    output := i.flags.output.or config.output
    config := none
    parseDates := i.flags.parseDates || config.parseDates }
  command := i.command.explaining config.explain

example :
    stating ⟨some .json, true, true⟩ ⟨⟨some .text, false, some "c", false, false⟩, .vars "r"⟩ =
      ⟨⟨some .text, false, none, true, false⟩, .vars "r"⟩ := by
  decide

variable {lib : Libraries} {files : Files} {config : Config} {i : Invocation}

theorem IsNamed.stating (h : i.IsNamed) : (i.stating config).IsNamed := by
  obtain ⟨flags, c⟩ := i
  refine ⟨nofun, ?_, ?_⟩
  · cases c with
    | eval rule data explain => exact h.data
    | _ => exact nofun
  · cases c with
    | _ => exact h.rule

/-- No file has to be read for the settings, and they differ only in the explanation, which a command
without the flag for it does not have. -/
theorem settings_stating :
    (i.stating config).settings .empty =
      { i.settings config with explain := (i.command.explaining config.explain).explain } := by
  simp [settings, stating, Settings.resolve, Config.empty]

theorem runCommand_explaining {s : Settings} {on : Bool} {c : Command}
    (h : s.explain = (c.explain || on)) :
    lib.runCommand files { s with explain := (c.explaining on).explain } (c.explaining on) =
      lib.runCommand files s c := by
  cases c with
  | eval rule data explain =>
    have hexplain : (Command.explaining on (.eval rule data explain)).explain = s.explain := h.symm
    rw [hexplain]
    rfl
  | _ => rfl

theorem perform_stating (h : i.config? lib files = some config) :
    lib.perform files (i.stating config) = lib.perform files i := by
  have hempty : (i.stating config).config? lib files = some .empty := rfl
  rw [perform_of_config hempty, perform_of_config h, settings_stating]
  exact runCommand_explaining rfl

end Invocation

/-- What a settings file states is what flags can say. With any arguments that ask for the invocation
without the file and with those flags a run has the same outcome as with the file: the same status, output
and diagnostics, whatever the command, its other flags and the contents of its files are. A flag that is
given next to the file is not given again. Such arguments are those written for this invocation. -/
theorem settings_file_as_flags (lib : Libraries) (files : Files) {args : List String} {i : Invocation}
    {config : Config} (hargs : lib.arguments args = .ok i) (hverbose : i.flags.verbose = false)
    (hconfig : i.config? lib files = some config) :
    (∀ args', lib.arguments args' = .ok (i.stating config) →
      lib.run files args' = lib.run files args) ∧
      (lib.ReadsArguments → lib.run files (i.stating config).arguments = lib.run files args) := by
  have hrun : ∀ args', lib.arguments args' = .ok (i.stating config) →
      lib.run files args' = lib.run files args := by
    intro args' hargs'
    rw [Libraries.run_eq_perform hargs hverbose, Libraries.run_eq_perform hargs' hverbose]
    exact Invocation.perform_stating hconfig
  exact ⟨hrun, fun hreads => hrun _ (hreads.written (hreads.named hargs).stating)⟩

theorem settings_file_as_flags_json_explained :
    let files : Files := fun path =>
      .ok (if path = "c" then "output = \"json\"\nexplain = true\nparse_dates = true\n" else "1")
    standard.run files ["eval", "--output=json", "--parse-dates", "--explain", "--", "r"] =
        standard.run files ["--config", "c", "eval", "r"] ∧
      standard.run files ["--parse-dates", "eval", "r", "--explain", "--output", "json"] =
        standard.run files ["--config", "c", "eval", "r"] := by
  intro files
  let i : Invocation := ⟨⟨none, false, some "c", false, false⟩, .eval "r" none false⟩
  have hargs : standard.arguments ["--config", "c", "eval", "r"] = .ok i := rfl
  have hconfig : i.config? standard files = some ⟨some .json, true, true⟩ := by decide +kernel
  obtain ⟨hrun, hwritten⟩ := settings_file_as_flags standard files hargs rfl hconfig
  exact ⟨hwritten readsArguments_standard, hrun _ rfl⟩

end JsonRules.CommandLine
