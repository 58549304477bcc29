/-
What the command line asks for.

Reading has two steps.  The arguments are first read as operands and switches, for which
it matters only which switches there are and which of them take a value.  What was read is
then fitted to the command: one operand, each switch at most once, points as often as
wanted.  Any mismatch is wrong usage, and nothing more is said about it.
-/
import Branchwise.Branches.Basic
import Branchwise.Decimal.Numeral
import Branchwise.Text.Cut

namespace Branchwise

/-! ### Operands and switches -/

/-- The switches of the command line. -/
inductive Switch
  | verbose | point | window
deriving DecidableEq, Repr

namespace Switch

/-- The name of a switch behind one dash. -/
def letter : Switch → Char
  | .verbose => 'v'
  | .point => 'p'
  | .window => 'w'

/-- The name of a switch behind two dashes. -/
def word : Switch → String
  | .verbose => "verbose"
  | .point => "point"
  | .window => "window"

/-- Whether the switch comes with a value; one that does not is a flag. -/
def takesValue : Switch → Bool
  | .verbose => false
  | .point | .window => true

end Switch

/-- One thing that the arguments say. -/
inductive Argument
  | operand (text : String)
  | flag (switch : Switch)
  | setting (switch : Switch) (value : String)
deriving DecidableEq, Repr

namespace Argument

/-- What a single argument with a dash says: flags, and perhaps a switch that takes a value,
which is attached or else the next argument. -/
structure Dashed where
  flags : List Switch
  last : Option (Switch × Option String)

/-- Reads switches by their letters.  The first that takes a value takes the rest of the
argument, less an equals sign in front. -/
def readLetters? (known : List Switch) : List Char → Option Dashed
  | [] => some ⟨[], none⟩
  | c :: rest => do
    let switch ← known.find? (·.letter = c)
    if switch.takesValue then
      let value := match rest with
        | [] => none
        | '=' :: value => some (String.ofList value)
        | value => some (String.ofList value)
      return ⟨[], some (switch, value)⟩
    else
      let dashed ← readLetters? known rest
      return ⟨switch :: dashed.flags, dashed.last⟩

/-- Reads a switch by its word, with or without a value behind an equals sign. -/
def readWord? (known : List Switch) (text : List Char) : Option Dashed := do
  let (word, value) := match Text.cut? '=' text with
    | none => (String.ofList text, none)
    | some (word, value) => (String.ofList word, some (String.ofList value))
  let switch ← known.find? (·.word = word)
  if switch.takesValue then return ⟨[], some (switch, value)⟩
  else if value.isSome then none
  else return ⟨[switch], none⟩

/-- A dash alone is an operand like any other text. -/
def isDashed (argument : String) : Bool :=
  argument.toList.head? = some '-' && argument != "-"

/-- Reads an argument that is dashed. -/
def readDashed? (known : List Switch) (argument : String) : Option Dashed :=
  match argument.toList with
  | '-' :: '-' :: word => readWord? known word
  | '-' :: letters => readLetters? known letters
  | _ => none

/-- Reads all arguments.  After two dashes alone there are only operands. -/
def readAll? (known : List Switch) : List String → Option (List Argument)
  | [] => some []
  | argument :: rest =>
    if argument = "--" then some (rest.map operand)
    else if isDashed argument then do
      let dashed ← readDashed? known argument
      let flags := dashed.flags.map flag
      match dashed.last, rest with
      | none, rest => return flags ++ (← readAll? known rest)
      | some (switch, some value), rest =>
        return flags ++ setting switch value :: (← readAll? known rest)
      | some _, [] => none
      | some (switch, none), value :: rest =>
        if isDashed value then none
        else return flags ++ setting switch value :: (← readAll? known rest)
    else return operand argument :: (← readAll? known rest)

/-- The text of an operand. -/
def operand? : Argument → Option String
  | operand text => some text
  | _ => none

/-- The value that is given for a switch. -/
def setting? (switch : Switch) : Argument → Option String
  | setting switch' value => if switch = switch' then some value else none
  | _ => none

end Argument

/-! ### Commands -/

/-- What the program can be asked for. -/
inductive Command
  /-- List the tokens of a formula. -/
  | tokenize (formula : String)
  /-- Write the tree of a formula. -/
  | parse (formula : String)
  /-- List the values of a formula at some points. -/
  | eval (formula : String) (points : List String) (window : Nat)
  /-- Evaluate the lines of a file. -/
  | batch (file : String) (window : Nat)
deriving DecidableEq, Repr

/-- A command, and whether the steps towards its answer are told too. -/
structure Invocation where
  verbose : Bool
  command : Command
deriving DecidableEq, Repr

namespace Invocation

/-- A window is a whole number of at most 32 binary digits; it may have a sign. -/
def readWindow? (text : String) : Option Nat :=
  let (negative, digits) := Decimal.takeSign text.toList
  let n := Decimal.digitsValue digits
  if digits.isEmpty || !digits.all Char.isDigit then none
  else if Nat.pow 2 32 ≤ n || (negative && n != 0) then none
  else some n

/-- The only element of a list. -/
def only? {α : Type} : List α → Option α
  | [a] => some a
  | _ => none

/-- The window that is given, or else the default; nothing if two are given or the text is no
window. -/
def window? (arguments : List Argument) : Option Nat :=
  match arguments.filterMap (Argument.setting? .window) with
  | [] => some defaultWindow
  | [text] => readWindow? text
  | _ => none

/-- Whether a flag is given; nothing if it is given twice. -/
def flag? (switch : Switch) (arguments : List Argument) : Option Bool :=
  match arguments.count (.flag switch) with
  | 0 => some false
  | 1 => some true
  | _ => none

/-- Reads the arguments behind the name of a command. -/
def readCommand? (name : String) (rest : List String) : Option (Command × List Argument) :=
  if name = "tokenize" then do
    let arguments ← Argument.readAll? [.verbose] rest
    return (.tokenize (← only? (arguments.filterMap Argument.operand?)), arguments)
  else if name = "parse" then do
    let arguments ← Argument.readAll? [.verbose] rest
    return (.parse (← only? (arguments.filterMap Argument.operand?)), arguments)
  else if name = "eval" then do
    let arguments ← Argument.readAll? [.verbose, .point, .window] rest
    let formula ← only? (arguments.filterMap Argument.operand?)
    let points := arguments.filterMap (Argument.setting? .point)
    return (.eval formula points (← window? arguments), arguments)
  else if name = "batch" then do
    let arguments ← Argument.readAll? [.verbose, .window] rest
    let file ← only? (arguments.filterMap Argument.operand?)
    guard (file != "")
    return (.batch file (← window? arguments), arguments)
  else none

/-- Reads all the arguments.  Before the name of the command only the flag for telling more
may stand. -/
def ofArguments? (arguments : List String) : Option Invocation := do
  let leading := arguments.takeWhile Argument.isDashed
  guard ("--" ∉ leading)
  let before ← Argument.readAll? [.verbose] leading
  let name ← (arguments.dropWhile Argument.isDashed).head?
  let rest := (arguments.dropWhile Argument.isDashed).tail
  let (command, behind) ← readCommand? name rest
  let early ← flag? .verbose before
  let late ← flag? .verbose behind
  return ⟨early || late, command⟩

end Invocation

end Branchwise
