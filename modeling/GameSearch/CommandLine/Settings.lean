import GameSearch.Agent.Settings
import GameSearch.CommandLine.Basic
import GameSearch.Decimal.Fixed
import GameSearch.Decimal.Reader
import GameSearch.Journal

/-!
# What a user can set

The options for the settings of the searching agents, of the journal and of the random numbers, and
the settings and options of the program that plays matches.
-/

namespace GameSearch

namespace CommandOption

variable {σ : Type}

/-- An option for any text. -/
def text (name purpose : String) (initial : Option String) (set : String → σ → σ) :
    CommandOption σ :=
  { name := name, purpose := purpose, argument := .value initial fun value => some (set value) }

/-- An option for a whole number that fits a signed word of the given number of bits. -/
def whole (bits : Nat) (name purpose : String) (initial : Int) (set : Int → σ → σ) :
    CommandOption σ :=
  { name := name, purpose := purpose
    argument := .value (some (toString initial)) fun value =>
      (Decimal.readWhole? bits value).map set }

/-- An option for a floating-point number, which the help shows with some places. -/
def real (places : Nat) (name purpose : String) (initial : Binary64)
    (set : Binary64 → σ → σ) :
    CommandOption σ :=
  { name := name, purpose := purpose
    argument := .value (some (Decimal.fixed places initial)) fun value =>
      (Decimal.readReal? value).map set }

end CommandOption

open CommandOption

/-- The options for the settings of a searching agent, which are at first as given. -/
def SearchSettings.options (initial : SearchSettings) : OptionGroup SearchSettings :=
  ⟨"Tree agent options",
    [real 4 "exploration-constant" "UCT exploration constant" initial.explorationConstant
        fun value s => { s with explorationConstant := value },
      whole 32 "max-playout-depth" "plies after which a playout is cut off and scored 0.5"
        initial.maxPlayoutDepth fun value s => { s with maxPlayoutDepth := value },
      real 3 "time-scale" "fraction of the available time spent searching" initial.timeScale
        fun value s => { s with timeScale := value },
      whole 64 "min-buffer-ms" "time kept in reserve before the play clock would expire"
        initial.minBufferMs fun value s => { s with minBufferMs := value },
      whole 64 "max-buffer-ms"
        "time subtracted from the per-move allowance when computing the minimum budget"
        initial.maxBufferMs fun value s => { s with maxBufferMs := value },
      { whole 32 "guessed-remaining-moves" "number of moves the total time is spread over"
          initial.guessedRemainingMoves fun value s => { s with guessedRemainingMoves := value } with
        isMinor := true },
      whole 32 "max-logged-options" "max number of move options logged per decision"
        initial.maxLoggedOptions fun value s => { s with maxLoggedOptions := value }] ++
    switch initial.buildsBook (fun value s => { s with buildsBook := value })
      ("build-book", "spend the start clock on an opening book (perfect-information games)")
      ("no-build-book", "do not build an opening book")⟩

/-- The options for the settings of a journal, which are at first as given. -/
def JournalSettings.options (initial : JournalSettings) : OptionGroup JournalSettings :=
  ⟨"Logging options",
    [text "log-filename" "log filename; if set, logs go to this file as well as stdout" none
        fun value s => { s with file := value },
      text "log-level" "trace, debug, info, warn or error" (some initial.level)
        fun value s => { s with level := value }] ++
    switch initial.appends (fun value s => { s with appends := value })
      ("log-append-mode", "write log in append mode")
      ("log-write-mode", "write log in write mode") ++
    switch initial.omitsStamps (fun value s => { s with omitsStamps := value })
      ("omit-timestamps", "omit timestamps")
      ("include-timestamps", "include timestamps")⟩

/-- The option for the seed of the random numbers, which is at first as given. -/
def seedOptions (initial : Int) : OptionGroup Int :=
  ⟨"Random options",
    [whole 32 "seed" "random seed (default: 0 means seed with current time)" initial
      fun value _ => value]⟩

/-- What a series of matches is to be like. -/
structure SeriesSettings where
  game : String := "tictactoe"
  /-- The names of the agents, for the roles in their order, chance left out. -/
  agents : List String := []
  startClock : String := Clock.Settings.defaultStart.text
  playClock : String := Clock.Settings.defaultPlay.text
  count : Int := 1

/-- The options for the settings of a series, which are at first as given. -/
def SeriesSettings.options (initial : SeriesSettings) : OptionGroup SeriesSettings :=
  ⟨"Program options",
    [text "game" "dark_split_corridor, minipoker or tictactoe" (some initial.game)
        fun value s => { s with game := value },
      { text "agent" ("random, mcts, sois-mcts or mo-ismcts, one per role in role order " ++
          "(the chance role excluded)") none
          fun value s => { s with agents := s.agents ++ [value] } with
        isRepeatable := true },
      text "startclock" "start clock, \"T | I d D\" in seconds" (some initial.startClock)
        fun value s => { s with startClock := value },
      text "playclock" "play clock, \"T | I d D\" in seconds" (some initial.playClock)
        fun value s => { s with playClock := value },
      whole 32 "num-matches" "number of matches to play" initial.count
        fun value s => { s with count := value }]⟩

/-- The settings of what a program has to do with agents, a journal and random numbers. -/
structure CommonSettings where
  search : SearchSettings := {}
  journal : JournalSettings := {}
  /-- The seed of the random numbers; 0 leaves them as they are. -/
  seed : Int := 0

/-- The options for such settings, which are at first as given. -/
def CommonSettings.options (initial : CommonSettings) : List (OptionGroup CommonSettings) :=
  [initial.search.options.within fun change s => { s with search := change s.search },
    initial.journal.options.within fun change s => { s with journal := change s.journal },
    (seedOptions initial.seed).within fun change s => { s with seed := change s.seed }]

/-- The settings of the program that plays matches. -/
structure ProgramSettings where
  /-- Whether the help is asked for. -/
  wantsHelp : Bool := false
  /-- Whether the full help is asked for. -/
  wantsFullHelp : Bool := false
  series : SeriesSettings := {}
  common : CommonSettings := {}

namespace ProgramSettings

/-- The options that ask for help. -/
def helpOptions : OptionGroup ProgramSettings :=
  ⟨"General options",
    [{ name := "help", letter := some 'h', purpose := "help (most used options)"
       argument := .nothing fun s => { s with wantsHelp := true } },
      { name := "help-full", purpose := "help (all options)"
        argument := .nothing fun s => { s with wantsFullHelp := true } }]⟩

/-- The command line of the program. -/
def commandLine (initial : ProgramSettings) : CommandLine ProgramSettings :=
  ⟨helpOptions ::
    (initial.series.options.within fun change s => { s with series := change s.series }) ::
    initial.common.options.map (·.within fun change s => { s with common := change s.common })⟩

end ProgramSettings

end GameSearch
