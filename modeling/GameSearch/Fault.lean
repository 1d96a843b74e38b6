import GameSearch.Text.Terminated

/-!
# Faults

Everything that can go wrong in the library, one constructor per cause.  `Fault.kind` sorts the
causes into the classes a caller can tell apart, `Fault.message` is the text shown to a user.
Causes carry texts rather than terms or states, so that this module stands below those of the
domain.
-/

namespace GameSearch

/-- The classes of faults a caller can tell apart. -/
inductive Fault.Kind where
  /-- A turn that is not one legal move for each role in control. -/
  | illegalTurn
  /-- A game query that must have an answer has none. -/
  | unsatisfiable
  /-- A game query took too long. -/
  | queryTimeout
  /-- A game query that must have one answer has several. -/
  | severalModels
  /-- Any other failure of a game query. -/
  | gameQuery
  /-- An agent was used without a game. -/
  | agentWithoutGame
  /-- An agent was used without a role. -/
  | agentWithoutRole
  /-- Any other misuse of an agent. -/
  | agentUse
  | clockFormat
  /-- A failed check of what the user asked for. -/
  | cleanAssertion
  /-- The user asked for something impossible. -/
  | clean
  /-- No world of a belief agrees with an observation. -/
  | mismatch
  /-- A failed internal check. -/
  | assertion
  /-- A failed internal check of the debugging build. -/
  | debugAssertion
  /-- Any other failure of the library. -/
  | general
  /-- A text that is not a number of the wanted type. -/
  | numberFormat
  /-- A failure of the surroundings. -/
  | runtime
  /-- A look-up outside of its table. -/
  | outOfRange
deriving DecidableEq

/-- The causes of failure. -/
inductive Fault where
  | emptyTerm
  | malformedTerm (term : String)
  | repeatedRole (role : String)
  | noMoveFor (turn role : String)
  | emptyClock (clock : String)
  | clockNotNumber (clock piece : String)
  | clockNegative (clock piece : String)
  | malformedClock (clock : String)
  | turnSize (turn state : String)
  | illegalPlay (role move state : String)
  | stuckRole (role state : String)
  | unknownStart (ply : Int)
  | notANumber
  | malformedFact (fact : String)
  | noPosition (role state : String)
  | malformedCell (cell : String)
  | blockedDirection (role direction cell : String)
  | unexpectedRole (role : String)
  | noTransition (turn state : String)
  | unknownGame (name : String) (known : List String)
  | emptyDraw
  | utilityOutOfRange (utility : String)
  | negativePlayouts
  | invalidRanking (rank rankCount places : Int)
  | negativeMaxDepth
  | noLegalMove (role : String)
  | noGameForBook
  | emptyValueRange (lower upper : String)
  | inconsistentBounds (lower upper state : String)
  | negativeDepth (depth : Int)
  | noWorlds
  | noNode (id : Int)
  | wrongNode (id : Int)
  | notExpanded (id : Nat)
  | notAWorld (state : String) (id : Nat)
  | emptyRestriction (id : Nat)
  | developedBack (depth ply : Int)
  | viewContradictsState (view state : String) (ply : Int)
  | noDevelopmentFromPly (depth : Int) (view : String) (ply : Int)
  | viewContradictsWorlds (view : String) (id : Nat) (ply : Int)
  | unreachableView (view : String) (ply : Int) (id : Nat)
  | noDevelopmentFromNode (id : Nat) (view : String) (ply : Int)
  | noWorldAgrees (ply : Int) (role evidence : String)
  | controlDiffers (role view : String)
  | noChild (id : Nat)
  | noMoveAt (id : Nat) (role : String)
  | negativeExploration (constant : String)
  | worldNotHeld (role : String) (ply : Int) (world : String)
  | worldUnreachable (world role : String) (ply : Int)
  | noEntryInWorld (id : Nat) (role turn world : String)
  | noEntryAtPly (id : Nat) (role turn : String) (ply : Int)
  | missingFactory
  | factoryReturnedNothing (ruleset : String)
  | noGame (agent : String)
  | noRole (agent : String)
  | illegalChoice (agent move : String)
  | nothingToPlayAt (role : String) (ply : Int)
  | notARole (role : String)
  | noAgentFor (role : String)
  | agentCount (agents roles : Nat)
  | unknownOption (token : String)
  | missingArgument (option : String)
  | unwantedArgument (option : String)
  | repeatedOption (option : String)
  | invalidArgument (option value : String)
  | unknownLevel (level : String)
  | unknownAgent (name : String)
  | agentOptionCount (game : String) (wanted given : Nat)
  | outOfRange
  /-- The bound on the number of steps of a search was too small for it to end. -/
  | outOfSteps
  /-- A fault that a table or a script asks for. -/
  | raised (kind : Fault.Kind) (text : String)
deriving DecidableEq

namespace Fault

def kind : Fault → Kind
  | emptyTerm | malformedTerm _ | unknownStart _ | negativePlayouts | utilityOutOfRange _
  | invalidRanking _ _ _ | negativeMaxDepth | noLegalMove _ | noGameForBook
  | emptyValueRange _ _ | inconsistentBounds _ _ _ | negativeDepth _ | noWorlds | noNode _
  | wrongNode _ | notExpanded _ | notAWorld _ _ | emptyRestriction _ | developedBack _ _
  | controlDiffers _ _ | negativeExploration _ | noEntryInWorld _ _ _ _ | noEntryAtPly _ _ _ _
  | missingFactory | factoryReturnedNothing _ | illegalChoice _ _ | notARole _ => .assertion
  | repeatedRole _ | noMoveFor _ _ | noChild _ | noMoveAt _ _ | nothingToPlayAt _ _ => .general
  | emptyClock _ | clockNotNumber _ _ | clockNegative _ _ | malformedClock _ => .clockFormat
  | turnSize _ _ | illegalPlay _ _ _ | blockedDirection _ _ _ | unexpectedRole _ => .illegalTurn
  | stuckRole _ _ | malformedFact _ | noPosition _ _ | malformedCell _ | noTransition _ _ =>
    .unsatisfiable
  | notANumber => .numberFormat
  | unknownGame _ _ | noAgentFor _ | agentCount _ _ | unknownOption _ | missingArgument _
  | unwantedArgument _ | repeatedOption _ | invalidArgument _ _ | unknownLevel _
  | unknownAgent _ => .clean
  | emptyDraw | outOfSteps => .runtime
  | viewContradictsState _ _ _ | noDevelopmentFromPly _ _ _ | viewContradictsWorlds _ _ _
  | unreachableView _ _ _ | noDevelopmentFromNode _ _ _ | noWorldAgrees _ _ _
  | worldNotHeld _ _ _ | worldUnreachable _ _ _ => .mismatch
  | noGame _ => .agentWithoutGame
  | noRole _ => .agentWithoutRole
  | agentOptionCount _ _ _ => .cleanAssertion
  | outOfRange => .outOfRange
  | raised k _ => k

/-- How a failed internal check introduces itself. -/
def asserted (text : String) : String := "RELEASE_ASSERT failed: " ++ text

def wording : Fault → String
  | emptyTerm => asserted "empty subrelation"
  | malformedTerm term => asserted s!"malformed subrelation {term}"
  | repeatedRole role => s!"Turn: role {role} appears twice"
  | noMoveFor turn role => s!"Turn {turn} has no move for role {role}"
  | emptyClock clock => s!"invalid clock configuration \"{clock}\": empty"
  | clockNotNumber clock piece =>
    s!"invalid clock configuration \"{clock}\": \"{piece}\" is not a number"
  | clockNegative clock piece =>
    s!"invalid clock configuration \"{clock}\": \"{piece}\" is negative"
  | malformedClock clock => s!"invalid clock configuration \"{clock}\""
  | turnSize turn state => s!"turn {turn} does not match the roles in control of {state}"
  | illegalPlay role move state => s!"illegal play {role}: {move} in {state}"
  | stuckRole role state => s!"role {role} is in control of {state} but has no legal move"
  | unknownStart ply =>
    asserted s!"cannot enumerate developments from unknown states at ply {ply}"
  | notANumber => "bad lexical cast: source type value could not be interpreted as target"
  | malformedFact fact => s!"malformed fact {fact}"
  | noPosition role state => s!"no position for {role} in {state}"
  | malformedCell cell => s!"malformed cell {cell}"
  | blockedDirection role direction cell => s!"{role} cannot move {direction} from {cell}"
  | unexpectedRole role => s!"unexpected role {role}"
  | noTransition turn state => s!"no transition {turn} from {state}"
  | unknownGame name known =>
    let names := ", ".intercalate known
    s!"unknown game \"{name}\" (expected one of: {names})"
  | emptyDraw => "Random::uniform_sample() - invalid range"
  | utilityOutOfRange utility => asserted s!"utility {utility} out of range"
  | negativePlayouts => asserted "total_playouts >= 0"
  | invalidRanking rank rankCount places =>
    asserted s!"invalid ranking rank={rank} rank_count={rankCount} places={places}"
  | negativeMaxDepth => asserted "max_depth must be non-negative"
  | noLegalMove role => asserted s!"role {role} has no legal move"
  | noGameForBook => asserted "interpreter_ != nullptr"
  | emptyValueRange lower upper => asserted s!"empty value range [{lower}, {upper}]"
  | inconsistentBounds lower upper state =>
    asserted s!"inconsistent bounds [{lower}, {upper}] for {state}"
  | negativeDepth depth => asserted s!"negative depth {depth}"
  | noWorlds => asserted "information set without possible states"
  | noNode id => asserted s!"no node with id {id}"
  | wrongNode id => asserted s!"node {id} has an unexpected type"
  | notExpanded id => asserted s!"node {id} is not expanded"
  | notAWorld state id => asserted s!"{state} is not a world of node {id}"
  | emptyRestriction id => asserted s!"restricting node {id} would leave no possible state"
  | developedBack depth ply => asserted s!"cannot develop node at depth {depth} back to ply {ply}"
  | viewContradictsState view state ply =>
    s!"view {view} is inconsistent with state {state} at ply {ply}"
  | noDevelopmentFromPly depth view ply =>
    s!"no development from ply {depth} is consistent with view {view} at ply {ply}"
  | viewContradictsWorlds view id ply =>
    s!"view {view} is inconsistent with every world of node {id} at ply {ply}"
  | unreachableView view ply id => s!"view {view} at ply {ply} is unreachable from node {id}"
  | noDevelopmentFromNode id view ply =>
    s!"no development from node {id} is consistent with view {view} at ply {ply}"
  | noWorldAgrees ply role evidence =>
    s!"no world at ply {ply} agrees with what {role} has observed: {evidence}"
  | controlDiffers role view =>
    asserted s!"control of {role} differs across worlds sharing view {view}"
  | noChild id => s!"no child of node {id} to select from"
  | noMoveAt id role => s!"node {id} offers no move for {role}"
  | negativeExploration constant => asserted s!"negative exploration constant {constant}"
  | worldNotHeld role ply world => s!"{role}'s tree at ply {ply} does not hold {world}"
  | worldUnreachable world role ply =>
    s!"{world} is unreachable from {role}'s tree at ply {ply}"
  | noEntryInWorld id role turn world =>
    asserted s!"node {id} of {role} has no entry for {turn} in {world}"
  | noEntryAtPly id role turn ply =>
    asserted s!"node {id} of {role} has no entry for {turn} at ply {ply}"
  | missingFactory => asserted "missing interpreter factory"
  | factoryReturnedNothing ruleset =>
    asserted s!"interpreter factory returned nothing for {ruleset}"
  | noGame agent => s!"{agent} has no interpreter (no match in progress)"
  | noRole agent => s!"{agent} has no role (no match in progress)"
  | illegalChoice agent move => asserted s!"{agent} chose illegal move {move}"
  | nothingToPlayAt role ply => s!"{role} has no legal move at ply {ply}"
  | notARole role => asserted s!"{role} is not a role of the game"
  | noAgentFor role => s!"no agent for role {role}"
  | agentCount agents roles => s!"{agents} agents for {roles} roles"
  | unknownOption token => s!"unrecognised option '{token}'"
  | missingArgument option => s!"the required argument for option '--{option}' is missing"
  | unwantedArgument option => s!"option '--{option}' does not take any arguments"
  | repeatedOption option => s!"option '--{option}' cannot be specified more than once"
  | invalidArgument option value =>
    s!"the argument ('{value}') for option '--{option}' is invalid"
  | unknownLevel level => s!"unknown log level \"{level}\""
  | unknownAgent name => s!"unknown agent \"{name}\""
  | agentOptionCount game wanted given =>
    s!"CLEAN_ASSERT failed: {game} takes {wanted} --agent options, got {given}"
  | outOfRange => ""
  | outOfSteps => "out of steps"
  | raised _ text => text

/-- The text shown to a user: the wording, but no more than stands before a NUL. -/
def message (e : Fault) : String := untilNul e.wording

/-- Whether a caller may answer the fault by giving up on one agent: everything but a failed
internal check and what the surroundings raise. -/
def Kind.isRecoverable : Kind → Bool
  | .assertion | .debugAssertion | .numberFormat | .runtime | .outOfRange => false
  | _ => true

/-- Whether the library raised the fault, rather than its surroundings. -/
def Kind.isOwn : Kind → Bool
  | .numberFormat | .runtime | .outOfRange => false
  | _ => true

/-- Whether the fault is the user's doing, and so is reported without further ado. -/
def Kind.isClean : Kind → Bool
  | .clean | .cleanAssertion | .clockFormat => true
  | _ => false

end Fault

end GameSearch
