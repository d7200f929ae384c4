import JsonRules.CommandLine.Run

/-!
The arguments of an invocation. What is read from arguments names files by texts that are not empty, and
every such invocation has arguments from which it is read: its options stand behind the name of the
sub-command, each with its value in one argument, and the words come last, where they are no options
whatever they look like. This is all that the program needs to know of a reader of arguments
(`Libraries.ReadsArguments`).
-/
namespace JsonRules

def OutputFormat.name : OutputFormat → String
  | .text => "text"
  | .json => "json"

theorem OutputFormat.named?_name (format : OutputFormat) : named? format.name = some format := by
  cases format <;> rfl

namespace CommandLine

section Results

variable {ε α β : Type}

@[simp] theorem bind_eq_ok {x : Except ε α} {f : α → Except ε β} {b : β} :
    x >>= f = .ok b ↔ ∃ a, x = .ok a ∧ f a = .ok b := by
  cases x <;> simp [bind, Except.bind]

@[simp] theorem mapError_eq_ok {ε' : Type} {g : ε → ε'} {x : Except ε α} {a : α} :
    x.mapError g = .ok a ↔ x = .ok a := by
  cases x with
  | error e =>
    change Except.error (g e) = .ok a ↔ _
    simp
  | ok b =>
    change Except.ok b = .ok a ↔ _
    simp

@[simp] theorem pure_eq_ok {a b : α} : (pure a : Except ε α) = .ok b ↔ a = b := by
  simp [pure, Except.pure]

theorem of_foldlM_eq_ok {P : β → Prop} {f : β → α → Except ε β}
    (hstep : ∀ b a b', P b → f b a = .ok b' → P b') {xs : List α} {b b' : β} (hb : P b)
    (h : xs.foldlM f b = .ok b') : P b' := by
  induction xs generalizing b with
  | nil => exact pure_eq_ok.mp h ▸ hb
  | cons x xs ih =>
    rw [List.foldlM_cons] at h
    obtain ⟨next, hnext, hrest⟩ := bind_eq_ok.mp h
    exact ih (hstep b x next hb hnext) hrest

theorem foldlM_append_of_ok {f : β → α → Except ε β} {xs ys : List α} {b b' : β}
    (h : xs.foldlM f b = .ok b') : (xs ++ ys).foldlM f b = ys.foldlM f b' := by
  rw [List.foldlM_append, h]
  rfl

end Results

structure Invocation.IsNamed (i : Invocation) : Prop where
  config : i.flags.config ≠ some ""
  data : i.command.data? ≠ some ""
  rule : i.command.rule ≠ ""

namespace Reading

section Names

variable {r r' : Reading} {s : String} {arity : Nat} {isEval : Bool}

structure IsNamed (r : Reading) : Prop where
  config : r.flags.config ≠ some ""
  data : r.data ≠ some ""
  words : r.words.head? ≠ some ""

theorem isNamed_empty : empty.IsNamed := ⟨nofun, nofun, nofun⟩

@[simp] theorem fileName_eq_ok_iff {t : String} : fileName s = .ok t ↔ s ≠ "" ∧ s = t := by
  unfold fileName
  by_cases h : s = "" <;> simp [h]

@[simp] theorem once_eq_ok_iff {α : Type} {old new : Option α} {a : α} :
    once old a = .ok new ↔ old = none ∧ some a = new := by
  cases old <;> simp [once]

@[simp] theorem on_eq_ok_iff {old new : Bool} : on old = .ok new ↔ old = false ∧ true = new := by
  cases old <;> simp [on]

theorem IsNamed.value {option : Valued} (hr : r.IsNamed) (h : r.value option s = .ok r') :
    r'.IsNamed := by
  unfold Reading.value at h
  cases option with
  | output =>
    dsimp only at h
    split at h
    · simp only [bind_eq_ok, once_eq_ok_iff, pure_eq_ok] at h
      obtain ⟨_, -, rfl⟩ := h
      exact ⟨hr.config, hr.data, hr.words⟩
    · contradiction
  | config =>
    simp only [bind_eq_ok, fileName_eq_ok_iff, once_eq_ok_iff, pure_eq_ok] at h
    obtain ⟨_, ⟨hne, rfl⟩, _, ⟨-, rfl⟩, rfl⟩ := h
    exact ⟨fun h => hne (Option.some.inj h), hr.data, hr.words⟩
  | data =>
    simp only [bind_eq_ok, fileName_eq_ok_iff, once_eq_ok_iff, pure_eq_ok] at h
    obtain ⟨_, ⟨hne, rfl⟩, _, ⟨-, rfl⟩, rfl⟩ := h
    exact ⟨hr.config, fun h => hne (Option.some.inj h), hr.words⟩

theorem IsNamed.switch {switch : Switch} (hr : r.IsNamed) (h : r.switch switch = .ok r') :
    r'.IsNamed := by
  cases switch with
  | help => contradiction
  | version => contradiction
  | _ =>
    simp only [Reading.switch, bind_eq_ok, on_eq_ok_iff, pure_eq_ok] at h
    obtain ⟨_, -, rfl⟩ := h
    exact ⟨hr.config, hr.data, hr.words⟩

theorem IsNamed.option {side : Side} {token : Token} (hr : r.IsNamed)
    (h : r.option side token = .ok r') : r'.IsNamed := by
  unfold Reading.option at h
  split at h
  · split at h
    · obtain rfl := pure_eq_ok.mp h
      exact ⟨hr.config, hr.data, hr.words⟩
    · exact hr.switch h
    · contradiction
  · split at h
    · exact hr.value h
    · contradiction
  · refine of_foldlM_eq_ok (fun r c r' hr h => ?_) hr h
    split at h
    · exact hr.switch h
    · contradiction
  · contradiction
  · contradiction

theorem word_eq_ok_iff :
    r.word arity s = .ok r' ↔
      r.words.length < arity ∧ (r.words = [] → s ≠ "") ∧
        { r with words := r.words ++ [s] } = r' := by
  unfold Reading.word
  dsimp only
  by_cases hroom : r.words.length < arity
  · rw [if_neg (Nat.not_le.mpr hroom), and_iff_right hroom]
    by_cases hwords : r.words = []
    · rw [if_pos (List.isEmpty_iff.mpr hwords), imp_iff_right hwords]
      simp only [bind_eq_ok, fileName_eq_ok_iff, pure_eq_ok, and_assoc, exists_and_left,
        exists_eq_left']
    · rw [if_neg (mt List.isEmpty_iff.mp hwords)]
      simp only [bind_eq_ok, pure_eq_ok, exists_eq_left', hwords, false_imp_iff, true_and]
  · rw [if_pos (Nat.le_of_not_lt hroom)]
    exact iff_of_false nofun fun h => hroom h.1

theorem IsNamed.word (hr : r.IsNamed) (h : r.word arity s = .ok r') : r'.IsNamed := by
  obtain ⟨-, hne, rfl⟩ := word_eq_ok_iff.mp h
  refine ⟨hr.config, hr.data, ?_⟩
  cases hwords : r.words with
  | nil => exact fun h => hne hwords (Option.some.inj h)
  | cons first rest =>
    have hfirst := hr.words
    rwa [hwords] at hfirst

theorem IsNamed.argument (hr : r.IsNamed) (h : r.argument isEval arity s = .ok r') :
    r'.IsNamed := by
  unfold Reading.argument at h
  split at h
  · exact hr.word h
  · split at h
    · exact hr.value h
    · contradiction
    · obtain rfl := pure_eq_ok.mp h
      exact ⟨hr.config, hr.data, hr.words⟩
    · exact hr.word h
    · exact hr.option h

end Names

theorem isNamed_behind {isEval : Bool} {arity : Nat} {args : List String} {r : Reading}
    (h : behind isEval arity args = .ok r) : r.IsNamed := by
  obtain ⟨r', hread, h⟩ := bind_eq_ok.mp h
  split at h
  · contradiction
  · obtain rfl := pure_eq_ok.mp h
    exact of_foldlM_eq_ok (fun _ _ _ hr h => hr.argument h) isNamed_empty hread

end Reading

section Names

variable {name : String} {args : List String}

theorem exists_behind_of_command {flags : Flags} {c : Command}
    (h : command name args = .ok (flags, c)) :
    ∃ isEval arity r, Reading.behind isEval arity args = .ok r ∧ r.flags = flags ∧
      (c.data? = none ∨ c.data? = r.data) ∧ r.words.head? = some c.rule := by
  unfold command at h
  split at h
  case h_5 | h_6 => contradiction
  all_goals
    obtain ⟨r, hr, h⟩ := bind_eq_ok.mp h
    refine ⟨_, _, r, hr, ?_⟩
    split at h
    · rename_i hwords
      obtain ⟨rfl, rfl⟩ := Prod.mk.inj (pure_eq_ok.mp h)
      simp [Command.data?, Command.rule, hwords]
    · contradiction

theorem isNamed_of_command {before behind : Flags} {c : Command} (hbefore : before.config ≠ some "")
    (h : command name args = .ok (behind, c)) :
    Invocation.IsNamed ⟨before.merge behind, c⟩ := by
  obtain ⟨isEval, arity, r, hr, rfl, hdata, hrule⟩ := exists_behind_of_command h
  have hnamed := Reading.isNamed_behind hr
  refine ⟨?_, ?_, fun hempty => hnamed.words (hempty ▸ hrule)⟩
  · show r.flags.config.or before.config ≠ some ""
    cases hconfig : r.flags.config with
    | none => exact hbefore
    | some path => exact fun hempty => hnamed.config (hconfig.trans hempty)
  · rcases hdata with hnone | hsome
    · exact fun hempty => nomatch hnone.symm.trans hempty
    · exact hsome ▸ hnamed.data

theorem isNamed_of_parseFrom {r : Reading} (hr : r.IsNamed) {i : Invocation}
    (h : parseFrom r args = .ok i) : i.IsNamed := by
  induction args generalizing r with
  | nil => contradiction
  | cons s rest ih =>
    rw [parseFrom] at h
    split at h
    · obtain ⟨next, hnext, hrest⟩ := bind_eq_ok.mp h
      exact ih (hr.value hnext) hrest
    · contradiction
    · obtain ⟨⟨behind, c⟩, hcommand, hi⟩ := bind_eq_ok.mp h
      obtain rfl := pure_eq_ok.mp hi
      exact isNamed_of_command hr.config (mapError_eq_ok.mp hcommand)
    · obtain ⟨next, hnext, hrest⟩ := bind_eq_ok.mp h
      exact ih (hr.option hnext) hrest

end Names

section Writing

def valued (option : String) (value : Option String) : List String :=
  value.toList.map fun value => "--" ++ option ++ "=" ++ value

def given (on : Bool) (option : String) : List String := if on then [option] else []

def Flags.arguments (flags : Flags) : List String :=
  [valued "output" (flags.output.map OutputFormat.name), given flags.quiet "--quiet",
    valued "config" flags.config, given flags.parseDates "--parse-dates",
    given flags.verbose "--verbose"].flatten

namespace Command

def name : Command → String
  | .eval .. => "eval"
  | .validate _ => "validate"
  | .vars _ => "vars"
  | .values .. => "values"

def options : Command → List String
  | .eval _ data explain => valued "data" data ++ given explain "--explain"
  | _ => []

def words : Command → List String
  | .eval rule _ _ => [rule]
  | .validate rule => [rule]
  | .vars rule => [rule]
  | .values rule name => [rule, name]

end Command

/-- Arguments that ask for the invocation. Behind the two dashes no argument is an option. -/
def Invocation.arguments (i : Invocation) : List String :=
  i.command.name :: (i.flags.arguments ++ (i.command.options ++ "--" :: i.command.words))

example :
    Invocation.arguments ⟨⟨some .json, false, none, true, false⟩, .eval "-r" (some "d") true⟩ =
      ["eval", "--output=json", "--parse-dates", "--data=d", "--explain", "--", "-r"] := by
  decide

theorem ofArgument_valued {option : String} (h : '=' ∉ option.toList) (value : String) :
    Token.ofArgument ("--" ++ option ++ "=" ++ value) = .long option (some value) := by
  have hoption : ∀ c ∈ option.toList, (c != '=') = true := by
    intro c hc
    rw [bne_iff_ne]
    exact fun heq => h (heq ▸ hc)
  have hchars : ("--" ++ option ++ "=" ++ value).toList =
      '-' :: '-' :: (option.toList ++ '=' :: value.toList) := by
    simp
  have htake : (option.toList ++ '=' :: value.toList).takeWhile (· != '=') = option.toList := by
    rw [List.takeWhile_append_of_pos hoption]
    simp
  have hdrop :
      (option.toList ++ '=' :: value.toList).dropWhile (· != '=') = '=' :: value.toList := by
    rw [List.dropWhile_append_of_pos hoption]
    simp
  unfold Token.ofArgument
  rw [hchars]
  split
  next heq => simp at heq
  next heq =>
    simp only [List.cons.injEq, true_and] at heq
    subst heq
    rw [hdrop, htake]
    simp
  next hdash heq => exact absurd (List.cons.inj (List.cons.inj heq).2).1.symm hdash
  next hlong _ => exact absurd rfl (hlong _)

namespace Reading

variable {isEval : Bool} {arity : Nat}

theorem fileName_of_ne {s : String} (h : s ≠ "") : fileName s = .ok s :=
  fileName_eq_ok_iff.mpr ⟨h, rfl⟩

theorem foldlM_valued {r r' : Reading} {name : String} {option : Valued} {value : Option String}
    (hawaiting : r.awaiting = none) (hwords : r.onlyWords = false) (hname : '=' ∉ name.toList)
    (hoption : (Side.behind isEval).valued? name = some option) (hnone : value = none → r = r')
    (hsome : ∀ s, value = some s → r.value option s = .ok r') :
    (valued name value).foldlM (argument isEval arity) r = .ok r' := by
  cases value with
  | none => exact congrArg Except.ok (hnone rfl)
  | some s =>
    have hargument : r.argument isEval arity ("--" ++ name ++ "=" ++ s) = r.value option s := by
      simp [argument, Reading.option, hawaiting, hwords, ofArgument_valued hname, hoption]
    simp only [valued, Option.toList_some, List.map_cons, List.map_nil, List.foldlM_cons,
      List.foldlM_nil, bind_pure]
    rw [hargument, hsome s rfl]

theorem foldlM_flags {flags : Flags} (h : flags.config ≠ some "") :
    flags.arguments.foldlM (argument isEval arity) .empty =
      .ok ⟨flags, none, false, [], none, false⟩ := by
  obtain ⟨output, quiet, config, parseDates, verbose⟩ := flags
  let read (flags : Flags) : Reading := ⟨flags, none, false, [], none, false⟩
  have houtput : (valued "output" (output.map OutputFormat.name)).foldlM (argument isEval arity)
      Reading.empty = .ok (read ⟨output, false, none, false, false⟩) := by
    cases output with
    | none => rfl
    | some format => cases format <;> rfl
  have hquiet : (given quiet "--quiet").foldlM (argument isEval arity)
      (read ⟨output, false, none, false, false⟩) = .ok (read ⟨output, quiet, none, false, false⟩) := by
    cases quiet <;> rfl
  have hconfig : (valued "config" config).foldlM (argument isEval arity)
      (read ⟨output, quiet, none, false, false⟩) =
        .ok (read ⟨output, quiet, config, false, false⟩) := by
    refine foldlM_valued rfl rfl (by decide) rfl (by rintro rfl; rfl) ?_
    rintro path rfl
    rw [value, fileName_of_ne fun hempty => h (hempty ▸ rfl)]
    rfl
  have hdates : (given parseDates "--parse-dates").foldlM (argument isEval arity)
      (read ⟨output, quiet, config, false, false⟩) =
        .ok (read ⟨output, quiet, config, parseDates, false⟩) := by
    cases parseDates <;> rfl
  have hverbose : (given verbose "--verbose").foldlM (argument isEval arity)
      (read ⟨output, quiet, config, parseDates, false⟩) =
        .ok (read ⟨output, quiet, config, parseDates, verbose⟩) := by
    cases verbose <;> rfl
  simp only [Flags.arguments, List.flatten_cons, List.flatten_nil]
  rw [foldlM_append_of_ok houtput, foldlM_append_of_ok hquiet, foldlM_append_of_ok hconfig,
    foldlM_append_of_ok hdates, foldlM_append_of_ok hverbose]
  rfl

theorem foldlM_options (arity : Nat) (flags : Flags) {data : Option String} (explain : Bool)
    (h : data ≠ some "") :
    (valued "data" data ++ given explain "--explain").foldlM (argument true arity)
        ⟨flags, none, false, [], none, false⟩ =
      .ok ⟨flags, data, explain, [], none, false⟩ := by
  have hdata : (valued "data" data).foldlM (argument true arity)
      ⟨flags, none, false, [], none, false⟩ = .ok ⟨flags, data, false, [], none, false⟩ := by
    refine foldlM_valued rfl rfl (by decide) rfl (by rintro rfl; rfl) ?_
    rintro path rfl
    rw [value, fileName_of_ne fun hempty => h (hempty ▸ rfl)]
    rfl
  rw [foldlM_append_of_ok hdata]
  cases explain <;> rfl

theorem foldlM_words {r : Reading} {words : List String} (honly : r.onlyWords = true)
    (hroom : r.words.length + words.length ≤ arity) (hnamed : (r.words ++ words).head? ≠ some "") :
    words.foldlM (argument isEval arity) r = .ok { r with words := r.words ++ words } := by
  induction words generalizing r with
  | nil => simp [pure, Except.pure]
  | cons s rest ih =>
    rw [List.length_cons] at hroom
    have hs : r.words = [] → s ≠ "" := by
      rintro hwords rfl
      exact hnamed (by rw [hwords]; rfl)
    have hargument : r.argument isEval arity s = .ok { r with words := r.words ++ [s] } := by
      rw [argument, if_pos honly]
      exact word_eq_ok_iff.mpr ⟨by omega, hs, rfl⟩
    rw [List.foldlM_cons, hargument]
    have hrest := ih (r := { r with words := r.words ++ [s] }) honly
      (by rw [List.length_append, List.length_singleton]; omega)
      (by rwa [List.append_assoc, List.singleton_append])
    rwa [List.append_assoc, List.singleton_append] at hrest

theorem behind_arguments {flags : Flags} {data : Option String} {explain : Bool}
    {options words : List String} (hflags : flags.config ≠ some "")
    (hoptions : options.foldlM (argument isEval arity) ⟨flags, none, false, [], none, false⟩ =
      .ok ⟨flags, data, explain, [], none, false⟩)
    (hroom : words.length ≤ arity) (hnamed : words.head? ≠ some "") :
    behind isEval arity (flags.arguments ++ (options ++ "--" :: words)) =
      .ok ⟨flags, data, explain, words, none, true⟩ := by
  have hwords : words.foldlM (argument isEval arity) ⟨flags, data, explain, [], none, true⟩ =
      .ok ⟨flags, data, explain, words, none, true⟩ :=
    foldlM_words rfl (by simpa using hroom) hnamed
  have hall : (flags.arguments ++ (options ++ "--" :: words)).foldlM (argument isEval arity) .empty =
      .ok ⟨flags, data, explain, words, none, true⟩ := by
    rw [foldlM_append_of_ok (foldlM_flags hflags), foldlM_append_of_ok hoptions]
    exact hwords
  rw [behind, hall]
  rfl

end Reading

theorem command_arguments {i : Invocation} (h : i.IsNamed) :
    command i.command.name (i.flags.arguments ++ (i.command.options ++ "--" :: i.command.words)) =
      .ok (i.flags, i.command) := by
  obtain ⟨flags, c⟩ := i
  obtain ⟨hconfig, hdata, hrule⟩ := h
  have hfirst : some c.rule ≠ some "" := fun hempty => hrule (Option.some.inj hempty)
  cases c with
  | eval rule data explain =>
    have hoptions := Reading.foldlM_options 1 flags explain hdata
    exact bind_eq_ok.mpr ⟨_, Reading.behind_arguments hconfig hoptions (Nat.le_refl _) hfirst, rfl⟩
  | _ => exact bind_eq_ok.mpr ⟨_, Reading.behind_arguments hconfig rfl (Nat.le_refl _) hfirst, rfl⟩

theorem Flags.empty_merge (flags : Flags) : Flags.empty.merge flags = flags := by
  simp [Flags.merge, Flags.empty]

theorem parse_arguments {i : Invocation} (h : i.IsNamed) : parse i.arguments = .ok i := by
  have hname : Token.ofArgument i.command.name = .word i.command.name := by
    cases i.command <;> simp only [Command.name] <;> rfl
  rw [parse, Invocation.arguments, parseFrom, hname]
  simp only [Reading.empty, command_arguments h]
  change Except.ok (Invocation.mk (Flags.empty.merge i.flags) i.command) = .ok i
  rw [Flags.empty_merge]

theorem isNamed_of_parse {args : List String} {i : Invocation} (h : parse args = .ok i) :
    i.IsNamed :=
  isNamed_of_parseFrom Reading.isNamed_empty h

end Writing

/-- The reader of arguments takes only invocations whose files have names, and it takes each of them from
the arguments that are written for it. -/
structure Libraries.ReadsArguments (lib : Libraries) : Prop where
  named {args : List String} {i : Invocation} : lib.arguments args = .ok i → i.IsNamed
  written {i : Invocation} : i.IsNamed → lib.arguments i.arguments = .ok i

theorem readsArguments_standard : standard.ReadsArguments where
  named hargs := isNamed_of_parse (mapError_eq_ok.mp hargs)
  written h := mapError_eq_ok.mpr (parse_arguments h)

end CommandLine
end JsonRules
