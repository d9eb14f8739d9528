import LuaBundle.CommandLine.Arguments
import LuaBundle.Proofs.Number
import LuaBundle.Proofs.Text.Join

/-! What a command line says, from how it is written: a command, the script that it is about, and
options before, between and after the two. Reading it gives both back. Of the options that have one
value it gives the last, of those that gather values all of them in the order in which they stand,
wherever the other options stand. -/

namespace LuaBundle

open Text

namespace ValueOption

/-- The word in front of a value. -/
def word : ValueOption → Text
  | max => "-max"
  | path => "-path"
  | require => "-require"
  | engineArgument => "-engine-arg"
  | bundle => "-bundle"
  | engine => "-engine"
  | output => "-output"
  | config => "-config"

/-- The values that an option takes: a limit is a decimal numeral above zero, and only an argument
for the engine may look like an option. -/
def Takes : ValueOption → Text → Prop
  | max, value => value.all isDigit = true ∧ 0 < digitsValue 10 value
  | engineArgument, _ => True
  | _, value => Arguments.isOption value = false

instance decidableTakes : (option : ValueOption) → (value : Text) → Decidable (option.Takes value)
  | max, _ => inferInstanceAs (Decidable (_ ∧ _))
  | engineArgument, _ => inferInstanceAs (Decidable True)
  | path, _ | require, _ | bundle, _ | engine, _ | output, _ | config, _ =>
    inferInstanceAs (Decidable (_ = false))

/-- The number that a numeral spells, from `2 ^ 53` on rounded to the 64-bit format. -/
def limit (numeral : Text) : Number :=
  if digitsValue 10 numeral < 2 ^ 53 then .ofNat (digitsValue 10 numeral)
  else Number.ofDecimal false (digitsValue 10 numeral) 0

end ValueOption

/-- An option as it is written, with a value that it takes. -/
inductive WrittenOption where
  | detail
  | manual
  | value (option : ValueOption) (text : Text) (takes : option.Takes text)
  deriving DecidableEq

namespace WrittenOption

def words : WrittenOption → List Text
  | detail => ["--detail"]
  | manual => ["--manual"]
  | value option text _ => [option.word, text]

def valueOf? (option : ValueOption) : WrittenOption → Option Text
  | value other text _ => if other = option then some text else none
  | _ => none

/-- The values of an option, in the order in which they stand. -/
def values (written : List WrittenOption) (option : ValueOption) : List Text :=
  written.filterMap (valueOf? option)

end WrittenOption

open WrittenOption in
/-- What options say together. -/
def Options.ofWritten (written : List WrittenOption) : Options where
  config := (values written .config).getLast?
  max := (values written .max).getLast?.map ValueOption.limit
  paths := values written .path
  detail := decide (.detail ∈ written)
  bundle := (values written .bundle).getLast?
  engine := (values written .engine).getLast?
  output := (values written .output).getLast?
  requires :=
    if values written .require = [] then .none
    else some ((values written .require).flatMap Arguments.splitList)
  manual := decide (.manual ∈ written)
  engineArguments := values written .engineArgument

/-- A command line as it is written. -/
structure WrittenCommand where
  before : List WrittenOption
  command : Text
  between : List WrittenOption
  entry : Text
  after : List WrittenOption
  command_ne_nil : command ≠ []
  not_isOption_command : Arguments.isOption command = false
  not_isScript_command : Arguments.isScript command = false
  entry_ne_nil : entry ≠ []
  not_isOption_entry : Arguments.isOption entry = false

namespace WrittenCommand

def words (c : WrittenCommand) : List Text :=
  c.before.flatMap (·.words) ++ c.command :: c.between.flatMap (·.words) ++
    c.entry :: c.after.flatMap (·.words)

def written (c : WrittenCommand) : List WrittenOption := c.before ++ c.between ++ c.after

end WrittenCommand

namespace Arguments

open ValueOption WrittenOption

/-! The words of an option. -/

theorem isOption_word (option : ValueOption) : isOption option.word = true := by
  cases option <;> decide

theorem ofText?_word (option : ValueOption) : Flag.ofText? option.word = some (.value option) := by
  cases option <;> decide

theorem positive?_of_takes {numeral : Text} (h : ValueOption.max.Takes numeral) :
    positive? numeral = some (limit numeral) := by
  obtain ⟨hdigits, hpos⟩ := h
  have hne : numeral ≠ [] := by
    rintro rfl
    exact absurd hpos (by decide)
  rw [positive?, if_pos ⟨hne, hdigits, hpos.ne'⟩, limit]
  split
  · rename_i hsmall
    rw [Number.ofDecimal_natCast hsmall]
  · rfl

/-- A value that an option takes is not taken for the next option. -/
theorem not_refused_of_takes {option : ValueOption} {value : Text} (h : option.Takes value) :
    ¬(isOption value = true ∧ (!allowsDash option) = true) := by
  rintro ⟨hdash, hallows⟩
  cases option with
  | max =>
    obtain ⟨rest, rfl⟩ := List.head?_eq_some_iff.mp (of_decide_eq_true hdash)
    exact absurd (List.all_eq_true.mp h.1 dash List.mem_cons_self) (by decide)
  | engineArgument => exact absurd hallows (by decide)
  | _ => exact absurd (h.symm.trans hdash) (by decide)

variable {written : List WrittenOption}

theorem values_concat (w : WrittenOption) (option : ValueOption) :
    values (written ++ [w]) option = values written option ++ (w.valueOf? option).toList := by
  rw [values, List.filterMap_append]
  cases h : w.valueOf? option <;> simp [values, h]

/-- A value that is stored is the last of its option, and the other options stay as they are. -/
theorem store_ofWritten {option : ValueOption} {value : Text} (takes : option.Takes value) :
    store (Options.ofWritten written) value option =
      .ok (Options.ofWritten (written ++ [.value option value takes])) := by
  cases option with
  | max => simp [store, positive?_of_takes takes, Options.ofWritten, values_concat, valueOf?]
  | require =>
    by_cases hnone : values written .require = [] <;>
      simp [store, Options.ofWritten, values_concat, valueOf?, hnone]
  | _ => simp [store, Options.ofWritten, values_concat, valueOf?]

theorem ofWritten_detail : Options.ofWritten (written ++ [.detail]) =
    { Options.ofWritten written with detail := true } := by
  simp [Options.ofWritten, values_concat, valueOf?]

theorem ofWritten_manual : Options.ofWritten (written ++ [.manual]) =
    { Options.ofWritten written with manual := true } := by
  simp [Options.ofWritten, values_concat, valueOf?]

/-! Reading word by word. -/

/-- What is understood after options and, where they have been read, a command and its script. -/
def reading (command : Text) (entryFile : Option Text) (written : List WrittenOption) : Arguments :=
  ⟨command, entryFile, .ofWritten written, none⟩

variable {command entry : Text} {entryFile : Option Text}

theorem parseAfter_words (w : WrittenOption) (rest : List Text) :
    parseAfter (reading command entryFile written) (w.words ++ rest) =
      parseAfter (reading command entryFile (written ++ [w])) rest := by
  cases w with
  | detail =>
    rw [words, List.singleton_append, parseAfter, if_pos (by decide)]
    simp only [show Flag.ofText? "--detail" = some .detail by decide]
    rw [reading, reading, ofWritten_detail]
  | manual =>
    rw [words, List.singleton_append, parseAfter, if_pos (by decide)]
    simp only [show Flag.ofText? "--manual" = some .manual by decide]
    rw [reading, reading, ofWritten_manual]
  | value option value takes =>
    rw [words, List.cons_append, List.singleton_append, parseAfter, if_pos (isOption_word option)]
    simp only [ofText?_word, if_neg (not_refused_of_takes takes)]
    rw [reading, store_ofWritten takes]
    rfl

theorem parseAfter_flatMap_words (further : List WrittenOption) (rest : List Text) :
    parseAfter (reading command entryFile written) (further.flatMap (·.words) ++ rest) =
      parseAfter (reading command entryFile (written ++ further)) rest := by
  induction further generalizing written with
  | nil => simp
  | cons w further ih =>
    rw [List.flatMap_cons, List.append_assoc, parseAfter_words, ih, List.append_assoc,
      List.singleton_append]

/-- Before a command the first word that is no option is the command. -/
theorem parseAfter_command (hword : isOption command = false) (hscript : isScript command = false)
    (rest : List Text) :
    parseAfter (reading [] none written) (command :: rest) =
      parseAfter (reading command none written) rest := by
  have htake : (reading [] none written).takePositional command =
      .ok (reading command none written) := by
    rw [takePositional, if_pos (by rfl), if_neg (by simp [hscript])]
    rfl
  rw [parseAfter, if_neg (by simp [hword]), htake]

/-- After the command the next word that is no option is the script. -/
theorem parseAfter_entry (hcommand : command ≠ []) (hword : isOption entry = false)
    (rest : List Text) :
    parseAfter (reading command none written) (entry :: rest) =
      parseAfter (reading command (some entry) written) rest := by
  have htake : (reading command none written).takePositional entry =
      .ok (reading command (some entry) written) := by
    rw [takePositional, if_neg (by exact hcommand), if_pos (by rfl)]
    rfl
  rw [parseAfter, if_neg (by simp [hword]), htake]

/-- A script in the place of the command is one to build. -/
theorem parseAfter_script (hword : isOption entry = false) (hscript : isScript entry = true)
    (rest : List Text) :
    parseAfter (reading [] none written) (entry :: rest) =
      parseAfter (reading "build" (some entry) written) rest := by
  have htake : (reading [] none written).takePositional entry =
      .ok (reading "build" (some entry) written) := by
    rw [takePositional, if_pos (by rfl), if_pos hscript]
    rfl
  rw [parseAfter, if_neg (by simp [hword]), htake]

theorem parse_flatMap_words (before : List WrittenOption) (rest : List Text) :
    parse (before.flatMap (·.words) ++ rest) = parseAfter (reading [] none before) rest := by
  have hstart : only [] = reading [] none [] := rfl
  rw [parse, hstart, parseAfter_flatMap_words, List.nil_append]

theorem parse_words (c : WrittenCommand) :
    parse c.words = reading c.command (some c.entry) c.written := by
  rw [WrittenCommand.words, List.append_assoc, parse_flatMap_words, List.cons_append,
    parseAfter_command c.not_isOption_command c.not_isScript_command, parseAfter_flatMap_words,
    parseAfter_entry c.command_ne_nil c.not_isOption_entry,
    ← List.append_nil (c.after.flatMap _), parseAfter_flatMap_words]
  rfl

theorem parse_build (before : List WrittenOption) (hword : isOption entry = false)
    (hscript : isScript entry = true) (rest : List Text) :
    parse (before.flatMap (·.words) ++ ofString "build" :: entry :: rest) =
      parse (before.flatMap (·.words) ++ entry :: rest) := by
  rw [parse_flatMap_words, parse_flatMap_words, parseAfter_script hword hscript,
    parseAfter_command (by decide) (by decide), parseAfter_entry (by decide) hword]

/-- A list gives the items between its commas, without blanks around them, but no empty ones. -/
theorem splitList_joinWith {items : List Text} (hne : items ≠ [])
    (hitems : ∀ item ∈ items, comma ∉ item) :
    splitList (joinWith [comma] items) = (items.map trim).filter (· ≠ []) := by
  have hparts : ∀ item ∈ items, ∀ u ∈ item, (u == comma) = false :=
    fun item hitem u hu => beq_false_of_ne fun h => hitems item hitem (h ▸ hu)
  have hsplit : splitOn (· == comma) (joinWith [comma] items) = items :=
    splitOn_joinWith (beq_self_eq_true comma) hne hparts
  rw [splitList, hsplit]
  exact List.filter_congr fun item _ => by cases item <;> rfl

/-- Reading a command line gives back the command, the script and the options that it is written
with. The command to build may be left out in front of a script, whatever follows. -/
theorem parse_written :
    (∀ c : WrittenCommand, parse c.words =
      { command := c.command, entryFile := some c.entry, options := .ofWritten c.written,
        error := none }) ∧
    (∀ (before : List WrittenOption) (entry : Text) (rest : List Text),
      isOption entry = false → isScript entry = true →
        parse (before.flatMap (·.words) ++ ofString "build" :: entry :: rest) =
          parse (before.flatMap (·.words) ++ entry :: rest)) ∧
    ∀ items : List Text, items ≠ [] → (∀ item ∈ items, comma ∉ item) →
      splitList (joinWith [comma] items) = (items.map trim).filter (· ≠ []) :=
  ⟨parse_words, fun before _ rest hword hscript => parse_build before hword hscript rest,
    fun _ hne hitems => splitList_joinWith hne hitems⟩

/-- A command line with options on every side, some of them given again. -/
def crowded : WrittenCommand where
  before := [.value .max "5" (by decide), .detail, .value .path "lib" (by decide)]
  command := "analyze"
  between :=
    [.value .require "a.lua, b.lua,," (by decide), .value .engineArgument "-lm" (by decide),
      .value .output "x" (by decide)]
  entry := "main"
  after :=
    [.value .require "c.lua" (by decide), .value .max "0100" (by decide),
      .value .path "lib" (by decide), .value .output "" (by decide)]
  command_ne_nil := by decide
  not_isOption_command := by decide
  not_isScript_command := by decide
  entry_ne_nil := by decide
  not_isOption_entry := by decide

theorem parse_crowded :
    parse crowded.words = ⟨"analyze", some "main",
      { Options.none with
        max := some (.ofNat 100), paths := ["lib", "lib"], detail := true, output := some "",
        requires := some ["a.lua", "b.lua", "c.lua"], engineArguments := ["-lm"] }, none⟩ ∧
    parse ["--detail", "build", "main.lua", "-max"] = parse ["--detail", "main.lua", "-max"] ∧
    splitList "a, b,," = ["a", "b"] := by
  refine ⟨(parse_written.1 crowded).trans (by decide +kernel), ?_, ?_⟩
  · exact parse_written.2.1 [.detail] "main.lua" ["-max"] (by decide) (by decide)
  · exact (parse_written.2.2 ["a", " b", "", ""] (by decide) (by decide)).trans (by decide)

end Arguments

end LuaBundle
