import JsonRules.CommandLine.Run

/-!
The exit status of a run. What makes it 1 is said without the run (`Invocation.Fails`), and neither the
output format nor the quiet mode nor the explanation is part of it. In a quiet run only logged lines
remain; else a run with status 1 prints nothing but the verdict on a rule, and that only as JSON.
-/
namespace JsonRules.CommandLine

section Results

variable {ε ε' α β : Type}

theorem toOption_eq_some_iff {x : Except ε α} {a : α} : x.toOption = some a ↔ x = .ok a := by
  cases x <;> simp [Except.toOption]

theorem exists_error_of_toOption {x : Except ε α} (h : x.toOption = none) : ∃ e, x = .error e := by
  cases x with
  | error e => exact ⟨e, rfl⟩
  | ok a => contradiction

theorem toOption_bind (x : Except ε α) (f : α → Except ε β) :
    (x >>= f).toOption = x.toOption.bind fun a => (f a).toOption := by
  cases x <;> rfl

theorem toOption_mapError (g : ε → ε') (x : Except ε α) :
    (x.mapError g).toOption = x.toOption := by
  cases x <;> rfl

end Results

namespace Libraries

def json? (lib : Libraries) (files : Files) (path : String) : Option Value := do
  let text ← (files path).toOption
  let document ← (lib.json text).toOption
  return .ofJson document

/-- The data of an evaluation, before dates are read in them: an empty object if no file is given. -/
def input? (lib : Libraries) (files : Files) (data : Option String) : Option Value :=
  data.elim (some (.object [])) (lib.json? files)

end Libraries

/-- The command without its flag for an explanation. -/
def Command.task : Command → Command
  | .eval rule data _ => .eval rule data false
  | command => command

@[simp] theorem Command.rule_task (c : Command) : c.task.rule = c.rule := by
  cases c <;> rfl

@[simp] theorem Command.data?_task (c : Command) : c.task.data? = c.data? := by
  cases c <;> rfl

def verdictText (valid : Bool) : String := (Json.object [("valid", .bool valid)]).compact ++ "\n"

example : verdictText false = "\x7b\"valid\":false\x7d\n" := by decide +kernel

namespace Invocation

def config? (lib : Libraries) (files : Files) (i : Invocation) : Option Config :=
  i.flags.config.elim (some .empty) fun path => do
    let text ← (files path).toOption
    (lib.settings text).toOption

/-- What the evaluation ends with and what it logs, if the invocation gets that far. -/
def evaluation? (lib : Libraries) (files : Files) (i : Invocation) :
    Option (Except EvalError Evaluation × List String) :=
  match i.command with
  | .eval rule data _ => do
    let parseDates ← (i.config? lib files).map Config.parseDates
    let rule ← lib.json? files rule
    let data ← lib.input? files data
    return evaluate rule (if i.flags.parseDates || parseDates then data.withDates else data)
  | _ => none

def logged (lib : Libraries) (files : Files) (i : Invocation) : List String :=
  ((i.evaluation? lib files).map Prod.snd).getD []

/-- A rule to be validated is found to be invalid. -/
def Rejects (lib : Libraries) (files : Files) (i : Invocation) : Prop :=
  ∃ rule v, i.command = .validate rule ∧ lib.json? files rule = some v ∧ v.isValid = false

/-- What an invocation can fail in. -/
inductive Fails (lib : Libraries) (files : Files) (i : Invocation) : Prop
  | config (h : i.config? lib files = none)
  | rule (h : lib.json? files i.command.rule = none)
  | data {path : String} (hpath : i.command.data? = some path) (h : lib.json? files path = none)
  | evaluation {e : EvalError} {log : List String}
    (h : i.evaluation? lib files = some (.error e, log))
  | validation (h : i.Rejects lib files)

/-- The verdict on an invalid rule is asked for as JSON. -/
def RejectsAsJson (lib : Libraries) (files : Files) (i : Invocation) : Prop :=
  i.Rejects lib files ∧ ∃ config, i.config? lib files = some config ∧
    (i.flags.output.or config.output).getD .text = .json

/-- The invocations have the same command but for the flag for an explanation, the same texts in the
input files, and read dates alike. They may differ in the output format, the quiet mode and the
explanation, by their flags as well as by their settings files. -/
structure SameTask (lib : Libraries) (files files' : Files) (i i' : Invocation) : Prop where
  task : i.command.task = i'.command.task
  rule : (files i.command.rule).toOption = (files' i.command.rule).toOption
  data {path : String} : i.command.data? = some path →
    (files path).toOption = (files' path).toOption
  flag : i.flags.parseDates = i'.flags.parseDates
  config : (i.config? lib files).map Config.parseDates = (i'.config? lib files').map Config.parseDates

def settings (config : Config) (i : Invocation) : Settings :=
  Settings.resolve config i.flags.output i.flags.quiet i.command.explain i.flags.parseDates

/-- The outcomes that an invocation can have, with what is known of it then. -/
inductive Ends (lib : Libraries) (files : Files) (i : Invocation) : Outcome → Prop
  | failed (message : String) (output : OutputFormat) (h : i.Fails lib files)
    (hverdict : ¬ i.RejectsAsJson lib files) :
    Ends lib files i ⟨1, "", logText (i.logged lib files) ++ errorLine message output i.flags.quiet⟩
  | rejected (h : i.RejectsAsJson lib files) :
    Ends lib files i
      ⟨1, if i.flags.quiet then "" else verdictText false, logText (i.logged lib files)⟩
  | answered (text : String) (h : ¬ i.Fails lib files) :
    Ends lib files i ⟨0, if i.flags.quiet then "" else text, logText (i.logged lib files)⟩

end Invocation

namespace Libraries

variable (lib : Libraries) (files : Files)

theorem toOption_loadJson (path : String) :
    (lib.loadJson files path).toOption = lib.json? files path := by
  simp only [loadJson, json?, toOption_bind, toOption_mapError, Option.bind_eq_bind]
  rfl

theorem toOption_loadData (data : Option String) :
    (lib.loadData files data).toOption = lib.input? files data := by
  cases data with
  | none => rfl
  | some path => exact lib.toOption_loadJson files path

theorem toOption_loadPair (rule : String) (data : Option String) (parseDates : Bool) :
    (lib.loadPair files rule data parseDates).toOption =
      (lib.json? files rule).bind fun r => (lib.input? files data).map fun d =>
        (r, if parseDates then d.withDates else d) := by
  simp only [loadPair, toOption_bind, toOption_loadJson, toOption_loadData, Option.map_eq_bind]
  rfl

theorem toOption_loadConfig (i : Invocation) :
    (lib.loadConfig files i.flags.config).toOption = i.config? lib files := by
  unfold Invocation.config?
  cases i.flags.config with
  | none => rfl
  | some path =>
    simp only [loadConfig, toOption_bind, toOption_mapError]
    rfl

end Libraries

variable {lib : Libraries}

theorem Libraries.json?_congr {files files' : Files} {path : String}
    (h : (files path).toOption = (files' path).toOption) :
    lib.json? files path = lib.json? files' path := by
  rw [json?, json?, h]

namespace Invocation

section Endings

variable {files : Files} {i : Invocation} {config : Config} {rule : String}

theorem errorLine_quiet (message : String) (output : OutputFormat) :
    errorLine message output true = "" := rfl

theorem logText_nil_append (s : String) : logText [] ++ s = s := String.empty_append

theorem logged_of_none (h : i.evaluation? lib files = none) : i.logged lib files = [] := by
  rw [logged, h]
  rfl

theorem perform_of_config (h : i.config? lib files = some config) :
    lib.perform files i = lib.runCommand files (i.settings config) i.command := by
  have hload := toOption_eq_some_iff.mp ((lib.toOption_loadConfig files i).trans h)
  rw [Libraries.perform, hload]
  rfl

theorem ends_of_config_none (h : i.config? lib files = none) :
    Ends lib files i (lib.perform files i) := by
  obtain ⟨f, hf⟩ := exists_error_of_toOption ((lib.toOption_loadConfig files i).trans h)
  have hlog : i.logged lib files = [] := by
    refine logged_of_none ?_
    unfold evaluation?
    split
    · rw [h]
      rfl
    · rfl
  have hend := Ends.failed f.message (i.flags.output.getD .text) (.config h)
    (by rintro ⟨-, config, hconfig, -⟩; exact nomatch h.symm.trans hconfig)
  rw [Libraries.perform, hf]
  rwa [hlog, logText_nil_append] at hend

theorem ends_failed {f : Failure} {log : List String} (h : i.Fails lib files)
    (hrejects : ¬ i.Rejects lib files) (hlog : i.logged lib files = log) :
    Ends lib files i (failed (i.settings config) f log) := by
  subst hlog
  exact .failed f.message _ h fun hverdict => hrejects hverdict.1

theorem ends_answered {log : List String} (text : String) (h : ¬ i.Fails lib files)
    (hlog : i.logged lib files = log) :
    Ends lib files i (answered (i.settings config) text log) := by
  subst hlog
  exact .answered text h

theorem not_fails {v : Value} (hconfig : i.config? lib files = some config)
    (hrule : lib.json? files i.command.rule = some v)
    (hdata : ∀ path, i.command.data? = some path → lib.json? files path ≠ none)
    (heval : ∀ e log, i.evaluation? lib files ≠ some (.error e, log))
    (hrejects : ¬ i.Rejects lib files) : ¬ i.Fails lib files := by
  rintro (h | h | ⟨hpath, h⟩ | h | h)
  · exact nomatch hconfig.symm.trans h
  · exact nomatch hrule.symm.trans h
  · exact hdata _ hpath h
  · exact heval _ _ h
  · exact hrejects h

theorem ends_list (hconfig : i.config? lib files = some config) (hdata : i.command.data? = none)
    (heval : i.evaluation? lib files = none) (hrejects : ¬ i.Rejects lib files)
    (list : Value → List Value) :
    Ends lib files i (lib.runList files (i.settings config) i.command.rule list) := by
  have hrule := lib.toOption_loadJson files i.command.rule
  unfold Libraries.runList
  cases hload : lib.loadJson files i.command.rule with
  | error f =>
    rw [hload] at hrule
    exact ends_failed (.rule hrule.symm) hrejects (logged_of_none heval)
  | ok v =>
    rw [hload] at hrule
    refine ends_answered _ ?_ (logged_of_none heval)
    exact not_fails hconfig hrule.symm (by simp [hdata]) (by simp [heval]) hrejects

theorem rejects_iff {v : Value} (hcommand : i.command = .validate rule)
    (hrule : lib.json? files rule = some v) : i.Rejects lib files ↔ v.isValid = false := by
  constructor
  · rintro ⟨rule', v', h, hv, hvalid⟩
    obtain rfl := Command.validate.inj (hcommand.symm.trans h)
    obtain rfl := Option.some.inj (hrule.symm.trans hv)
    exact hvalid
  · exact fun hvalid => ⟨rule, v, hcommand, hrule, hvalid⟩

theorem ends_rejected_text (message : String) (hconfig : i.config? lib files = some config)
    (hrejects : i.Rejects lib files) (hlog : i.logged lib files = [])
    (houtput : (i.settings config).output = .text) :
    Ends lib files i ⟨1, "", errorLine message .text i.flags.quiet⟩ := by
  have hverdict : ¬ i.RejectsAsJson lib files := by
    rintro ⟨-, config', hconfig', hjson⟩
    obtain rfl := Option.some.inj (hconfig.symm.trans hconfig')
    exact nomatch houtput.symm.trans hjson
  have hend := Ends.failed message .text (.validation hrejects) hverdict
  rwa [hlog, logText_nil_append] at hend

theorem ends_rejected_json (hconfig : i.config? lib files = some config)
    (hrejects : i.Rejects lib files) (hlog : i.logged lib files = [])
    (houtput : (i.settings config).output = .json) :
    Ends lib files i ⟨1, if i.flags.quiet then "" else verdictText false, ""⟩ := by
  have hend : Ends lib files i _ := .rejected ⟨hrejects, config, hconfig, houtput⟩
  rwa [hlog] at hend

theorem ends_validate (hconfig : i.config? lib files = some config)
    (hcommand : i.command = .validate rule) :
    Ends lib files i (lib.runValidate files (i.settings config) rule) := by
  have heval : i.evaluation? lib files = none := by rw [evaluation?, hcommand]
  have hlog := logged_of_none heval
  have hrule' : i.command.rule = rule := by rw [hcommand, Command.rule]
  have hrule := lib.toOption_loadJson files rule
  unfold Libraries.runValidate
  cases hload : lib.loadJson files rule with
  | error f =>
    rw [hload] at hrule
    refine ends_failed (.rule (hrule' ▸ hrule.symm)) ?_ hlog
    rintro ⟨rule', v, h, hv, -⟩
    obtain rfl := Command.validate.inj (hcommand.symm.trans h)
    exact nomatch hrule.trans hv
  | ok v =>
    rw [hload] at hrule
    have hrejects := rejects_iff hcommand hrule.symm
    dsimp only
    cases hvalid : v.isValid with
    | true =>
      have hok : ¬ i.Fails lib files :=
        not_fails hconfig (hrule'.symm ▸ hrule.symm) (by simp [hcommand, Command.data?])
          (by simp [heval]) (by simp [hrejects, hvalid])
      cases (i.settings config).output with
      | text => exact ends_answered _ hok hlog
      | json => exact ends_answered _ hok hlog
    | false =>
      cases houtput : (i.settings config).output with
      | text => exact ends_rejected_text _ hconfig (hrejects.mpr hvalid) hlog houtput
      | json => exact ends_rejected_json hconfig (hrejects.mpr hvalid) hlog houtput

section Evaluating

variable {data : Option String} {explain : Bool}

theorem evaluation?_eq (hconfig : i.config? lib files = some config)
    (hcommand : i.command = .eval rule data explain) :
    i.evaluation? lib files =
      (lib.loadPair files rule data (i.settings config).parseDates).toOption.map fun pair =>
        evaluate pair.1 pair.2 := by
  rw [Libraries.toOption_loadPair]
  simp only [evaluation?, hcommand, hconfig, Option.bind_eq_bind]
  cases lib.json? files rule with
  | none => rfl
  | some r => cases lib.input? files data <;> rfl

theorem fails_of_loadPair {parseDates : Bool} {f : Failure}
    (hcommand : i.command = .eval rule data explain)
    (h : lib.loadPair files rule data parseDates = .error f) : i.Fails lib files := by
  have hpair := lib.toOption_loadPair files rule data parseDates
  rw [h] at hpair
  cases hrule : lib.json? files rule with
  | none => exact .rule (by rwa [hcommand])
  | some r =>
    rw [hrule] at hpair
    cases data with
    | none => contradiction
    | some path =>
      have hdata : lib.json? files path = none := Option.map_eq_none_iff.mp hpair.symm
      exact .data (by rw [hcommand, Command.data?]) hdata

theorem inputs_of_loadPair {parseDates : Bool} {pair : Value × Value}
    (h : lib.loadPair files rule data parseDates = .ok pair) :
    (∃ r, lib.json? files rule = some r) ∧ ∀ path, data = some path → lib.json? files path ≠ none := by
  have hpair := lib.toOption_loadPair files rule data parseDates
  rw [h] at hpair
  obtain ⟨r, hrule, hdata⟩ := Option.bind_eq_some_iff.mp hpair.symm
  refine ⟨⟨r, hrule⟩, ?_⟩
  rintro path rfl hnone
  obtain ⟨d, hd, -⟩ := Option.map_eq_some_iff.mp hdata
  exact nomatch hnone.symm.trans hd

theorem ends_eval (hconfig : i.config? lib files = some config)
    (hcommand : i.command = .eval rule data explain) :
    Ends lib files i (lib.runEval files (i.settings config) rule data) := by
  have hrejects : ¬ i.Rejects lib files := by
    rintro ⟨_, _, h, -⟩
    exact nomatch hcommand.symm.trans h
  have heval := evaluation?_eq hconfig hcommand
  unfold Libraries.runEval
  cases hload : lib.loadPair files rule data (i.settings config).parseDates with
  | error f =>
    rw [hload] at heval
    exact ends_failed (fails_of_loadPair hcommand hload) hrejects (logged_of_none heval)
  | ok pair =>
    obtain ⟨⟨r, hrule⟩, hdata⟩ := inputs_of_loadPair hload
    rw [hload] at heval
    obtain ⟨r', d⟩ := pair
    dsimp only [Except.toOption, Option.map_some] at heval ⊢
    generalize evaluate r' d = outcome at heval ⊢
    obtain ⟨result, log⟩ := outcome
    have hlog : i.logged lib files = log := by rw [logged, heval]; rfl
    cases result with
    | error e => exact ends_failed (.evaluation heval) hrejects hlog
    | ok e =>
      refine ends_answered _ (not_fails hconfig (v := r) (by rwa [hcommand]) ?_ ?_ hrejects) hlog
      · rwa [hcommand]
      · rintro e' log' h
        exact nomatch heval.symm.trans h

end Evaluating

/-- Each command reports its failures on its own, but all runs end in one of three ways. -/
theorem ends_perform (lib : Libraries) (files : Files) (i : Invocation) :
    Ends lib files i (lib.perform files i) := by
  cases hconfig : i.config? lib files with
  | none => exact ends_of_config_none hconfig
  | some config =>
    rw [perform_of_config hconfig]
    obtain ⟨flags, command⟩ := i
    cases command with
    | eval rule data explain => exact ends_eval hconfig rfl
    | validate rule => exact ends_validate hconfig rfl
    | vars rule => exact ends_list hconfig rfl rfl (by rintro ⟨_, _, h, -⟩; contradiction) _
    | values rule name => exact ends_list hconfig rfl rfl (by rintro ⟨_, _, h, -⟩; contradiction) _

theorem RejectsAsJson.fails (h : i.RejectsAsJson lib files) : i.Fails lib files := .validation h.1

variable {o : Outcome}

theorem Ends.code_eq (h : Ends lib files i o) :
    i.Fails lib files ∧ o.code = 1 ∨ ¬ i.Fails lib files ∧ o.code = 0 := by
  cases h with
  | failed message output h hverdict => exact .inl ⟨h, rfl⟩
  | rejected h => exact .inl ⟨h.fails, rfl⟩
  | answered text h => exact .inr ⟨h, rfl⟩

theorem Ends.code_eq_one_iff (h : Ends lib files i o) : o.code = 1 ↔ i.Fails lib files := by
  rcases h.code_eq with ⟨hfails, hcode⟩ | ⟨hfails, hcode⟩
  · exact iff_of_true hcode hfails
  · exact iff_of_false (by rw [hcode]; decide) hfails

theorem Ends.code_eq_zero_iff (h : Ends lib files i o) : o.code = 0 ↔ ¬ i.Fails lib files := by
  rcases h.code_eq with ⟨hfails, hcode⟩ | ⟨hfails, hcode⟩
  · exact iff_of_false (by rw [hcode]; decide) (not_not_intro hfails)
  · exact iff_of_true hcode hfails

theorem Ends.of_quiet (h : Ends lib files i o) (hquiet : i.flags.quiet = true) :
    o.stdout = "" ∧ o.stderr = logText (i.logged lib files) := by
  cases h with
  | failed message output h hverdict =>
    refine ⟨rfl, ?_⟩
    rw [hquiet, errorLine_quiet, String.append_empty]
  | rejected h => exact ⟨if_pos hquiet, rfl⟩
  | answered text h => exact ⟨if_pos hquiet, rfl⟩

theorem Ends.stdout_eq (h : Ends lib files i o) (hquiet : i.flags.quiet = false) (hcode : o.code = 1) :
    (i.RejectsAsJson lib files → o.stdout = verdictText false) ∧
      (¬ i.RejectsAsJson lib files → o.stdout = "") := by
  cases h with
  | failed message output h hverdict => exact ⟨fun h => absurd h hverdict, fun _ => rfl⟩
  | rejected h => exact ⟨fun _ => if_neg (by rw [hquiet]; decide), fun hverdict => absurd h hverdict⟩
  | answered text h => exact absurd hcode (by decide : (0 : UInt32) ≠ 1)

end Endings

section SameTask

variable {files files' : Files} {i i' : Invocation}

theorem SameTask.rule_eq (h : SameTask lib files files' i i') : i.command.rule = i'.command.rule := by
  rw [← Command.rule_task, h.task, Command.rule_task]

theorem SameTask.data?_eq (h : SameTask lib files files' i i') : i.command.data? = i'.command.data? := by
  rw [← Command.data?_task, h.task, Command.data?_task]

theorem SameTask.symm (h : SameTask lib files files' i i') : SameTask lib files' files i' i where
  task := h.task.symm
  rule := h.rule_eq ▸ h.rule.symm
  data hpath := (h.data (h.data?_eq.trans hpath)).symm
  flag := h.flag.symm
  config := h.config.symm

theorem SameTask.json?_rule (h : SameTask lib files files' i i') :
    lib.json? files i.command.rule = lib.json? files' i'.command.rule := by
  rw [← h.rule_eq]
  exact Libraries.json?_congr h.rule

theorem SameTask.input?_data (h : SameTask lib files files' i i') :
    lib.input? files i.command.data? = lib.input? files' i'.command.data? := by
  rw [← h.data?_eq]
  cases hdata : i.command.data? with
  | none => rfl
  | some path => exact Libraries.json?_congr (h.data hdata)

theorem SameTask.evaluation?_eq (h : SameTask lib files files' i i') :
    i.evaluation? lib files = i'.evaluation? lib files' := by
  have htask := h.task
  have hrule := h.json?_rule
  have hdata := h.input?_data
  have hconfig := h.config
  have hflag := h.flag
  obtain ⟨flags, command⟩ := i
  obtain ⟨flags', command'⟩ := i'
  cases command with
  | eval rule data explain =>
    cases command' with
    | eval rule' data' explain' =>
      dsimp only [Command.rule, Command.data?] at hrule hdata hflag
      simp only [evaluation?, hconfig, hflag, hrule, hdata]
    | _ => exact nomatch htask
  | _ =>
    cases command' with
    | eval rule' data' explain' => exact nomatch htask
    | _ => rfl

theorem SameTask.rejects (h : SameTask lib files files' i i') (hrejects : i.Rejects lib files) :
    i'.Rejects lib files' := by
  obtain ⟨rule, v, hcommand, hrule, hvalid⟩ := hrejects
  have hcommand' : i'.command = .validate rule := by
    have htask := h.task
    rw [hcommand] at htask
    cases hc : i'.command with
    | validate rule' => rw [hc] at htask; exact htask.symm
    | _ => rw [hc] at htask; exact nomatch htask
  refine ⟨rule, v, hcommand', ?_, hvalid⟩
  have hjson := h.json?_rule
  rw [hcommand, hcommand'] at hjson
  exact hjson.symm.trans hrule

theorem SameTask.fails (h : SameTask lib files files' i i') (hfails : i.Fails lib files) :
    i'.Fails lib files' := by
  rcases hfails with hconfig | hrule | ⟨hpath, hdata⟩ | heval | hrejects
  · refine .config ?_
    have := h.config
    rwa [hconfig, Option.map_none, eq_comm, Option.map_eq_none_iff] at this
  · exact .rule (h.json?_rule ▸ hrule)
  · refine .data (h.data?_eq ▸ hpath) ?_
    rwa [← Libraries.json?_congr (h.data hpath)]
  · exact .evaluation (h.evaluation?_eq ▸ heval)
  · exact .validation (h.rejects hrejects)

end SameTask

end Invocation

theorem Libraries.run_eq_perform {files : Files} {args : List String} {i : Invocation}
    (h : lib.arguments args = .ok i) (hverbose : i.flags.verbose = false) :
    lib.run files args = lib.perform files i := by
  rw [run, h]
  dsimp only
  rw [hverbose]
  rfl

theorem Libraries.code_run {files : Files} {args : List String} {i : Invocation}
    (h : lib.arguments args = .ok i) : (lib.run files args).code = (lib.perform files i).code := by
  rw [run, h]
  dsimp only
  split <;> rfl

/-- The exit status of a run is 1 if the invocation fails in something and else 0, so it is the same for
all invocations of one task. A quiet run prints the logged lines, as diagnostics, and nothing else. Any
other run with status 1 has an empty output, unless the verdict on an invalid rule is asked for as
JSON. -/
theorem exit_status (lib : Libraries) (files : Files) {args : List String} {i : Invocation}
    (h : lib.arguments args = .ok i) (hverbose : i.flags.verbose = false) :
    ((lib.run files args).code = 1 ↔ i.Fails lib files) ∧
      ((lib.run files args).code = 0 ↔ ¬ i.Fails lib files) ∧
      (∀ (files' : Files) (args' : List String) (i' : Invocation), lib.arguments args' = .ok i' →
        i.SameTask lib files files' i' → (lib.run files' args').code = (lib.run files args).code) ∧
      (i.flags.quiet = true →
        (lib.run files args).stdout = "" ∧
          (lib.run files args).stderr = logText (i.logged lib files)) ∧
      (i.flags.quiet = false → (lib.run files args).code = 1 →
        (i.RejectsAsJson lib files → (lib.run files args).stdout = verdictText false) ∧
        (¬ i.RejectsAsJson lib files → (lib.run files args).stdout = "")) := by
  have hends := i.ends_perform lib files
  rw [Libraries.run_eq_perform h hverbose]
  refine ⟨hends.code_eq_one_iff, hends.code_eq_zero_iff, fun files' args' i' h' htask => ?_,
    hends.of_quiet, hends.stdout_eq⟩
  have hends' := i'.ends_perform lib files'
  rw [Libraries.code_run h']
  rcases hends.code_eq with ⟨hfails, hcode⟩ | ⟨hfails, hcode⟩
  · rw [hcode]
    exact hends'.code_eq_one_iff.mpr (htask.fails hfails)
  · rw [hcode]
    exact hends'.code_eq_zero_iff.mpr (mt htask.symm.fails hfails)

theorem exit_status_validate :
    let files : Files := fun _ => .ok "\x7b\"nope\":1\x7d"
    (standard.run files ["validate", "r", "--output", "json"]).code = 1 ∧
      (standard.run files ["validate", "r", "--output", "json"]).stdout = verdictText false ∧
      (standard.run files ["--quiet", "validate", "r"]).code = 1 ∧
      (standard.run files ["--quiet", "validate", "r"]).stdout = "" := by
  intro files
  have hargs : standard.arguments ["validate", "r", "--output", "json"] =
      .ok ⟨⟨some .json, false, none, false, false⟩, .validate "r"⟩ := rfl
  have hargs' : standard.arguments ["--quiet", "validate", "r"] =
      .ok ⟨⟨none, true, none, false, false⟩, .validate "r"⟩ := rfl
  have hrule : (standard.json? files "r").map Value.isValid = some false := by
    decide +kernel
  obtain ⟨v, hjson, hvalid⟩ := Option.map_eq_some_iff.mp hrule
  have hrejects :
      Invocation.Rejects standard files ⟨⟨some .json, false, none, false, false⟩, .validate "r"⟩ :=
    ⟨"r", v, rfl, hjson, hvalid⟩
  obtain ⟨hone, -, hsame, -, hloud⟩ := exit_status standard files hargs rfl
  obtain ⟨-, -, -, hquiet, -⟩ := exit_status standard files hargs' rfl
  have hcode := hone.mpr (.validation hrejects)
  have hcode' := (hsame files _ _ hargs' ⟨rfl, rfl, nofun, rfl, rfl⟩).trans hcode
  have hverdict := (hloud rfl hcode).1 ⟨hrejects, .empty, rfl, rfl⟩
  exact ⟨hcode, hverdict, hcode', (hquiet rfl).1⟩

end JsonRules.CommandLine
