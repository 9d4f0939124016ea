import Readings.Generation.Sentence
import Readings.Text.Number

/-!
Arguments of the command. The first word is the grammar file and the other words are the sentence;
options may stand anywhere among them, up to a `--`, after which everything is a word.

An option is long, `--start`, or a letter, `-s`. Letters may be written together, `-vs`. The value
of a setting is attached, `--start=S`, `-sS`, `-s=S`, or it is the next argument, which must not
look like an option then.
-/

namespace Readings.Command

/-- An option without a value. -/
inductive Switch where
  | parallel
  | echo
  | verbose
  deriving DecidableEq, Inhabited

/-- An option with a value. -/
inductive Setting where
  | start
  | generate
  | depth
  | maxSteps
  | timeout
  deriving DecidableEq, Inhabited

/-- The command cannot be run with its arguments. -/
inductive UsageError where
  | unknownOption (option : String)
  | unexpectedValue (option value : String)
  | missingValue (setting : Setting)
  | invalidValue (setting : Setting) (value : String)
  | repeatedSwitch (switch : Switch)
  | repeatedSetting (setting : Setting)
  | missingFile
  deriving DecidableEq, Inhabited

namespace Switch

def named? : String → Option Switch
  | "parallel" => some parallel
  | "echo" => some echo
  | "verbose" => some verbose
  | _ => none

def lettered? : Char → Option Switch
  | 'v' => some verbose
  | _ => none

instance : ToString Switch :=
  ⟨fun | parallel => "--parallel" | echo => "--echo" | verbose => "--verbose"⟩

end Switch

namespace Setting

def named? : String → Option Setting
  | "start" => some start
  | "generate" => some generate
  | "depth" => some depth
  | "max-steps" => some maxSteps
  | "timeout-ms" => some timeout
  | _ => none

def lettered? : Char → Option Setting
  | 's' => some start
  | 'n' => some generate
  | _ => none

instance : ToString Setting :=
  ⟨fun
    | start => "--start <SYMBOL>"
    | generate => "--generate <AMOUNT>"
    | depth => "--depth <DEPTH>"
    | maxSteps => "--max-steps <STEPS>"
    | timeout => "--timeout-ms <MS>"⟩

end Setting

def UsageError.message : UsageError → String
  | unknownOption option => s!"unexpected argument '{option}' found"
  | unexpectedValue option value =>
    s!"unexpected value '{value}' for '{option}' found; no more were expected"
  | missingValue setting => s!"a value is required for '{setting}' but none was supplied"
  | invalidValue setting value => s!"invalid value '{value}' for '{setting}'"
  | repeatedSwitch switch => s!"the argument '{switch}' cannot be used multiple times"
  | repeatedSetting setting => s!"the argument '{setting}' cannot be used multiple times"
  | missingFile => "the following required arguments were not provided: <FILE>"

/-- What one argument says about options: some switches, and perhaps a setting with the value that
is attached to it. -/
structure Mention where
  switches : List Switch
  setting : Option (Setting × Option String)
  deriving DecidableEq, Inhabited

namespace Mention

/-- A long option, with what follows its equals sign. -/
def long (name : String) (value : Option String) : Except UsageError Mention :=
  match Setting.named? name, Switch.named? name, value with
  | some setting, _, _ => .ok ⟨[], some (setting, value)⟩
  | none, some switch, none => .ok ⟨[switch], none⟩
  | none, some _, some value => .error (.unexpectedValue ("--" ++ name) value)
  | none, none, _ => .error (.unknownOption ("--" ++ name))

/-- The value attached to a letter. -/
def attached : List Char → Option String
  | [] => none
  | '=' :: value => some (String.ofList value)
  | value => some (String.ofList value)

/-- A sequence of letters. The first that is a setting takes the rest as its value. -/
def letters : List Char → Except UsageError Mention
  | [] => .ok ⟨[], none⟩
  | c :: rest =>
    match Setting.lettered? c, Switch.lettered? c with
    | some setting, _ => .ok ⟨[], some (setting, attached rest)⟩
    | none, some switch =>
      (fun m ↦ ⟨switch :: m.switches, m.setting⟩) <$> letters rest
    | none, none => .error (.unknownOption ("-" ++ c.toString))

end Mention

inductive Shape where
  | word
  /-- Everything that follows is a word. -/
  | separator
  | options (mention : Mention)
  deriving DecidableEq, Inhabited

def Shape.of (argument : String) : Except UsageError Shape :=
  match argument.toList with
  | ['-', '-'] => .ok separator
  | '-' :: '-' :: option =>
    options <$> Mention.long (String.ofList (option.takeWhile (· ≠ '=')))
      ((option.dropWhile (· ≠ '=')).tail?.map String.ofList)
  | ['-'] => .ok word
  | '-' :: option => options <$> Mention.letters option
  | _ => .ok word

/-- What is said by the arguments, in their order. -/
inductive Item where
  | word (text : String)
  | switch (switch : Switch)
  | setting (setting : Setting) (value : String)
  deriving DecidableEq, Inhabited

namespace Item

/-- The items of a list of arguments. A setting without an attached value takes the next argument
if that one has the shape of a word. -/
def read : List String → Except UsageError (List Item)
  | [] => .ok []
  | argument :: rest => do
    match ← Shape.of argument with
    | .word => return word argument :: (← read rest)
    | .separator => return rest.map word
    | .options ⟨switches, none⟩ => return switches.map switch ++ (← read rest)
    | .options ⟨switches, some (s, some value)⟩ =>
      return switches.map switch ++ setting s value :: (← read rest)
    | .options ⟨switches, some (s, none)⟩ =>
      match rest with
      | [] => throw (.missingValue s)
      | value :: rest =>
        match Shape.of value with
        | .ok .word => return switches.map switch ++ setting s value :: (← read rest)
        | _ => throw (.missingValue s)

def words (items : List Item) : List String :=
  items.filterMap fun | word text => some text | _ => none

/-- A switch other than `verbose` is mentioned at most once. -/
def switched (items : List Item) (s : Switch) : Except UsageError Bool :=
  match items.count (switch s) with
  | 0 => .ok false
  | 1 => .ok true
  | _ => .error (.repeatedSwitch s)

def valuesOf (items : List Item) (s : Setting) : List String :=
  items.filterMap fun
    | setting s' value => if s' = s then some value else none
    | _ => none

/-- The value of a setting, which is mentioned at most once. -/
def valueOf? (items : List Item) (s : Setting) : Except UsageError (Option String) :=
  match valuesOf items s with
  | [] => .ok none
  | [value] => .ok (some value)
  | _ => .error (.repeatedSetting s)

/-- The value of a setting that `read` turns into a number below `bound`. -/
def numberOf? (items : List Item) (s : Setting) (read : String → Option Nat) (bound : Nat) :
    Except UsageError (Option Nat) := do
  match ← valueOf? items s with
  | none => return none
  | some value =>
    match (read value).filter (· < bound) with
    | some n => return some n
    | none => throw (.invalidValue s value)

/-- The number of sentences to generate, which may be written as minus zero. -/
def amountOf? (items : List Item) : Except UsageError (Option Nat) :=
  numberOf? items .generate (fun value ↦ (Text.integer? value).bind Int.toNat?) UInt32.size

end Item

structure Arguments where
  file : String
  words : List String
  start : Option String
  /-- So many sentences are generated instead of analysing one. -/
  generate : Option Nat
  depth : Nat
  maxSteps : Option Nat
  /-- A number of milliseconds. -/
  timeout : Option Nat
  parallel : Bool
  echo : Bool
  deriving DecidableEq, Inhabited

namespace Arguments

def ofItems (items : List Item) : Except UsageError Arguments := do
  let start ← Item.valueOf? items .start
  let generate ← Item.amountOf? items
  let depth ← Item.numberOf? items .depth Text.natural? UInt64.size
  let maxSteps ← Item.numberOf? items .maxSteps Text.natural? UInt64.size
  let timeout ← Item.numberOf? items .timeout Text.natural? UInt64.size
  let parallel ← Item.switched items .parallel
  let echo ← Item.switched items .echo
  match Item.words items with
  | [] | "" :: _ => throw .missingFile
  | file :: words =>
    return ⟨file, words, start, generate, depth.getD Generator.defaultDepth, maxSteps, timeout,
      parallel, echo⟩

def ofList (arguments : List String) : Except UsageError Arguments :=
  Item.read arguments >>= ofItems

end Arguments

end Readings.Command
