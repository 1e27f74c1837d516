import PatternAutomata.Automaton.Build
import PatternAutomata.Automaton.Graph
import PatternAutomata.Pattern.Parse

/-!
# The command line

The program takes one pattern, options and flags, and prints the automaton of the pattern. What it
prints and how it ends is a function of its arguments. It ends with 0 if there is an automaton, with
1 if there is something wrong with the pattern, and with 2 if there is something wrong with anything
else.
-/

namespace PatternAutomata

/-- What the arguments ask for. -/
structure Request where
  /-- The list of options. -/
  options : Bytes := []
  /-- The flags. -/
  flags : Bytes := []
  /-- Whether to print a graph. -/
  isGraph : Bool := false
  /-- The pattern, once it has been given. -/
  pattern : Option Bytes := none
deriving DecidableEq

/-- How the program ends. -/
structure Outcome where
  /-- The exit status. -/
  code : UInt32
  /-- What is printed as output. -/
  output : String := ""
  /-- What is printed as an error message. -/
  errors : Bytes := []
deriving DecidableEq

namespace Request

/-- Whether an argument may be a pattern: it does not look like a switch. A dash alone does not. -/
def isOperand (argument : Bytes) : Bool := argument.head? != some 0x2d || argument.length == 1

/-- Takes the arguments one by one. A switch that wants a value takes the next argument, whatever
it is; without a next argument it is not understood, and neither is a second pattern. -/
def take? (r : Request) : List Bytes → Option Request
  | [] => some r
  | argument :: rest =>
    if argument = .ofString "--dot" then take? { r with isGraph := true } rest
    else if r.pattern.isNone && isOperand argument then
      take? { r with pattern := some argument } rest
    else match rest with
      | [] => none
      | value :: rest =>
        if argument = .ofString "-o" then take? { r with options := value } rest
        else if argument = .ofString "-f" then take? { r with flags := value } rest
        else none

end Request

def usage (program : String) : String :=
  "usage: " ++ program ++ " [-o options] [-f flags] [--dot] PATTERN\n" ++
  "  -o options  comma separated Name=value list, e.g.\n" ++
  "              Encoding=LATIN-1,MustAdvance=true,MaxNFASize=100\n" ++
  "  -f flags    pattern flags (y = sticky)\n" ++
  "  --dot       print the NFA in GraphViz format\n"

namespace Outcome

/-- An ending with a message in one line. -/
def failed (code : UInt32) (heading : String) (message : Bytes) : Outcome where
  code := code
  errors := .ofString heading ++ message ++ .ofString "\n"

/-- Answers a request for the automaton of a pattern. The first thing wrong is reported: options,
then flags, then the pattern, then its size. -/
def ofPattern (r : Request) (pattern : Bytes) : Outcome :=
  match Options.read r.options with
  | .error e => failed 2 "error: " e.message
  | .ok options =>
    match Flags.read r.flags with
    | .error e => failed 2 "error: " e.message
    | .ok flags =>
      match Tree.ofPattern options pattern with
      | .error e => failed 1 "syntax error: " (.ofString e.message)
      | .ok tree =>
        match Automaton.ofTree tree options flags with
        | .error e => failed 1 "pattern too complex: " e.message
        | .ok a => { code := 0, output := if r.isGraph then a.graph tree else a.text tree }

/-- Runs the program of a given name on its arguments, each of which ends at its first zero
byte. -/
def ofArguments (program : String) (arguments : List Bytes) : Outcome :=
  match ({} : Request).take? (arguments.map Bytes.untilZero) with
  | some r@{ pattern := some pattern, .. } => ofPattern r pattern
  | _ => { code := 2, errors := .ofString (usage program) }

end Outcome

end PatternAutomata
