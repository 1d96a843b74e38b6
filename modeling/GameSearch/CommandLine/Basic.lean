import GameSearch.Fault

/-!
# Command lines

The options of a command line change settings of some type.  An option is written `--name value`,
`--name=value` or, if it takes no value, `--name`; any beginning of a name that no other name has
will do, and an option may have a letter as well, as in `-h`.  A word that begins with no dash, or
consists of one, is passed over unless it is the value of an option.

A command line is read in three passes, so that what is wrong with its form is reported before what
is wrong with its values: first the words are taken for options and their values, then the values
are read, then the settings are changed, in the order of the names of the options.
-/

namespace GameSearch

/-- What an option does, and what stands after its name. -/
inductive CommandOption.Argument (σ : Type) where
  /-- Nothing does. -/
  | nothing (change : σ → σ)
  /-- A value does, if it can be read; in its place a text for the value that the settings have
  without the option, if they have any. -/
  | value (initial : Option String) (change? : String → Option (σ → σ))

/-- An option of a command line. -/
structure CommandOption (σ : Type) where
  name : String
  letter : Option Char := none
  purpose : String
  argument : CommandOption.Argument σ
  /-- Whether the option may be given several times. -/
  isRepeatable : Bool := false
  /-- Whether only the full help shows the option. -/
  isMinor : Bool := false

namespace CommandOption

variable {σ τ : Type}

/-- An option for a part of the settings as an option for all of them. -/
def within (part : (τ → τ) → σ → σ) (option : CommandOption τ) : CommandOption σ :=
  { option with
    argument := match option.argument with
      | .nothing change => .nothing (part change)
      | .value initial change? => .value initial fun text => (change? text).map part }

/-- Two options that switch something on and off.  Only the full help shows the one that changes
nothing. -/
def switch (isOn : Bool) (set : Bool → σ → σ) (on off : String × String) :
    List (CommandOption σ) :=
  let option (words : String × String) (value : Bool) : CommandOption σ :=
    { name := words.1
      purpose := if value = isOn then words.2 ++ " (no-op)" else words.2
      argument := .nothing (set value)
      isRepeatable := true
      isMinor := value = isOn }
  [option on true, option off false]

/-- How an option is written, for the help. -/
def form (option : CommandOption σ) : String :=
  let name := match option.letter with
    | some letter => s!"-{letter} [ --{option.name} ]"
    | none => s!"--{option.name}"
  match option.argument with
  | .nothing _ => name
  | .value none _ => name ++ " arg"
  | .value (some initial) _ => name ++ " arg (=" ++ initial ++ ")"

/-- What the help says of an option. -/
def help (option : CommandOption σ) : String := "  " ++ option.form ++ ": " ++ option.purpose

/-- The option that a name stands for: the one of that name, or else the only one whose name begins
so. -/
def ofName? (options : List (CommandOption σ)) (name : List Char) : Option (CommandOption σ) :=
  match options.find? (·.name.toList = name) with
  | some option => some option
  | none =>
    match options.filter fun option => name.isPrefixOf option.name.toList with
    | [option] => some option
    | _ => none

/-- Whether a word is taken for an option: there is something after a dash. -/
def isWritten : (word : List Char) → Bool
  | '-' :: _ :: _ => true
  | _ => false

/-- The option that a word without a value asks for. -/
def ofWord? (options : List (CommandOption σ)) : List Char → Option (CommandOption σ)
  | '-' :: '-' :: name => ofName? options name
  | ['-', letter] => options.find? (·.letter = some letter)
  | _ => none

end CommandOption

/-- An option in a command line, with its value if it takes one. -/
structure Occurrence (σ : Type) where
  option : CommandOption σ
  value : String := ""

namespace Occurrence

variable {σ : Type}

/-- The occurrence of an option: its value may be a part of the same word, after an equals sign, or
the next word, whatever that looks like. -/
def take? (option : CommandOption σ) (assigned : List Char) (rest : List String) :
    Except Fault (Occurrence σ × List String) :=
  match option.argument, assigned, rest with
  | .nothing _, [], _ => .ok (⟨option, ""⟩, rest)
  | .nothing _, _ :: _, _ => .error (.unwantedArgument option.name)
  | .value _ _, _ :: value, _ => .ok (⟨option, String.ofList value⟩, rest)
  | .value _ _, [], value :: rest => .ok (⟨option, value⟩, rest)
  | .value _ _, [], [] => .error (.missingArgument option.name)

theorem length_take? {option : CommandOption σ} {assigned : List Char} {words rest : List String}
    {occurrence : Occurrence σ} (h : take? option assigned words = .ok (occurrence, rest)) :
    rest.length ≤ words.length := by
  unfold take? at h
  split at h <;> simp_all

/-- What the words of a command line ask for. -/
def ofWords? (options : List (CommandOption σ)) : List String → Except Fault (List (Occurrence σ))
  | [] => .ok []
  | word :: words =>
    if CommandOption.isWritten word.toList then
      let name := word.toList.takeWhile (· ≠ '=')
      match CommandOption.ofWord? options name with
      | none => .error (.unknownOption (String.ofList name))
      | some option =>
        match _h : take? option (word.toList.dropWhile (· ≠ '=')) words with
        | .error e => .error e
        | .ok (occurrence, rest) => (ofWords? options rest).map (occurrence :: ·)
    else ofWords? options words
termination_by words => words.length
decreasing_by
  · have := length_take? _h
    simp only [List.length_cons]
    omega
  · simp

/-- What an occurrence changes, after options of the given names. -/
def change? (earlier : List String) (occurrence : Occurrence σ) : Except Fault (σ → σ) :=
  let ⟨option, value⟩ := occurrence
  if !option.isRepeatable && earlier.contains option.name then .error (.repeatedOption option.name)
  else
    match option.argument with
    | .nothing change => .ok change
    | .value _ change? =>
      match change? value with
      | some change => .ok change
      | none => .error (.invalidArgument option.name value)

/-- What some occurrences change, each with the name of its option. -/
def changes? : (earlier : List String) → List (Occurrence σ) →
    Except Fault (List (String × (σ → σ)))
  | _, [] => .ok []
  | earlier, occurrence :: rest => do
    let change ← occurrence.change? earlier
    let name := occurrence.option.name
    return (name, change) :: (← changes? (name :: earlier) rest)

end Occurrence

/-- Some options under a caption. -/
structure OptionGroup (σ : Type) where
  caption : String
  options : List (CommandOption σ)

namespace OptionGroup

variable {σ τ : Type}

/-- Options for a part of the settings as options for all of them. -/
def within (part : (τ → τ) → σ → σ) (group : OptionGroup τ) : OptionGroup σ :=
  ⟨group.caption, group.options.map (·.within part)⟩

/-- What the help says of some options: a line for the caption and one for each option shown. -/
def help (full : Bool) (group : OptionGroup σ) : List String :=
  (group.caption ++ ":") ::
    (group.options.filter fun option => full || !option.isMinor).map CommandOption.help

end OptionGroup

/-- A command line for settings of some type: its options in groups. -/
structure CommandLine (σ : Type) where
  groups : List (OptionGroup σ)

namespace CommandLine

variable {σ : Type} (line : CommandLine σ)

def options : List (CommandOption σ) := line.groups.flatMap (·.options)

/-- The help, which leaves out some options unless it is full. -/
def help (full : Bool) : List String := line.groups.flatMap (·.help full)

/-- The settings that the words of a command line ask for. -/
def settings? (initial : σ) (words : List String) : Except Fault σ := do
  let occurrences ← Occurrence.ofWords? line.options words
  let changes ← Occurrence.changes? [] occurrences
  return (changes.mergeSort fun a b => a.1 ≤ b.1).foldl (fun settings (_, change) => change settings)
    initial

end CommandLine

end GameSearch
