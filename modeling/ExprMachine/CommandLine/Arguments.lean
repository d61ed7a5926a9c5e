import ExprMachine.Text.Blank

/-!
# Command line arguments

The first argument may name a command; without one, an argument is the path of a script, and no
argument at all asks for an interactive session. Options stand anywhere after the command.

* `Command`, `Invocation` — what is to be done, and how;
* `Refusal` — why nothing is to be done;
* `Arguments.read` — the invocation that arguments ask for.

The arguments are read from left to right, and the first one that is wrong, or asks for the version
or for help, decides.
-/

namespace ExprMachine

/-- What is to be done. -/
inductive Command where
  | run (path : String) (trace time : Bool)
  | repl (prompt : String) (trace : Bool)
  | disasm (path : String)
  | asm (path : String) (trace listing : Bool)
  deriving DecidableEq, Repr

/-- Whether a command traces the instructions that it runs. -/
def Command.traces : Command → Bool
  | run _ trace _ => trace
  | repl _ trace => trace
  | disasm _ => false
  | asm _ trace _ => trace

/-- The path of the file that a command reads. -/
def Command.path? : Command → Option String
  | run path _ _ => some path
  | repl _ _ => none
  | disasm path => some path
  | asm path _ _ => some path

/-- When the log is coloured. -/
inductive ColorChoice where
  | auto
  | always
  | never
  deriving DecidableEq, Repr

/-- A command and the options that all commands share. -/
structure Invocation where
  command : Command
  verbosity : Nat := 0
  quiet : Bool := false
  color : ColorChoice := .auto
  deriving DecidableEq, Repr

/-- Why arguments ask for nothing to be done. -/
inductive Refusal where
  | usage
  | help
  | version
  deriving DecidableEq, Repr

namespace Arguments

/-! ### Words -/

/-- The commands, and the case without one. -/
inductive Verb where
  | none
  | run
  | repl
  | disasm
  | asm
  deriving DecidableEq, Repr

/-- The command that a word names. -/
def verb? (word : String) : Option Verb :=
  [("run", Verb.run), ("repl", .repl), ("disasm", .disasm), ("asm", .asm)].lookup word

/-- The word that asks for help. -/
def helpWord : String := "help"

/-- What comes of asking for help on topics: there is help on no topic, and on any single command.
-/
def helpOn : List String → Refusal
  | [] => .help
  | [topic] => if topic = helpWord ∨ (verb? topic).isSome then .help else .usage
  | _ => .usage

/-- The options without a value. -/
inductive Flag where
  | verbose
  | quiet
  | trace
  | time
  | listing
  | version
  | help
  deriving DecidableEq, Repr

/-- The options that a command takes. -/
def takes : Verb → Flag → Bool
  | _, .verbose | _, .quiet | _, .help => true
  | .run, .trace | .repl, .trace | .asm, .trace => true
  | .run, .time => true
  | .asm, .listing => true
  | .none, .version => true
  | _, _ => false

/-- The flag of a long name. -/
def longFlag? (verb : Verb) (name : String) : Option Flag :=
  ([("verbose", Flag.verbose), ("quiet", .quiet), ("trace", .trace), ("time", .time),
    ("disasm", .listing), ("version", .version), ("help", .help)].lookup name).filter (takes verb)

/-- The flag of a letter. -/
def shortFlag? (verb : Verb) (letter : Char) : Option Flag :=
  ([('v', Flag.verbose), ('q', .quiet), ('V', .version), ('h', .help)].lookup letter).filter
    (takes verb)

/-- The options with a value. -/
inductive Setting where
  | color
  | prompt
  deriving DecidableEq, Repr

/-- The setting of a long name. -/
def setting? (verb : Verb) (name : String) : Option Setting :=
  if name = "color" then some .color
  else if name = "prompt" ∧ verb = .repl then some .prompt
  else none

/-- The choice that a word names. -/
def color? (word : String) : Option ColorChoice :=
  [("auto", ColorChoice.auto), ("always", .always), ("never", .never)].lookup word

/-! ### Reading -/

/-- What the arguments so far have given. -/
structure Given where
  verbosity : Nat := 0
  quiet : Bool := false
  trace : Bool := false
  time : Bool := false
  listing : Bool := false
  color : Option ColorChoice := none
  prompt : Option String := none
  path : Option String := none
  deriving DecidableEq, Repr

/-- Give a flag. Only the one that counts may be repeated. -/
def Given.flag (g : Given) : Flag → Except Refusal Given
  | .verbose => .ok { g with verbosity := g.verbosity + 1 }
  | .quiet => if g.quiet then .error .usage else .ok { g with quiet := true }
  | .trace => if g.trace then .error .usage else .ok { g with trace := true }
  | .time => if g.time then .error .usage else .ok { g with time := true }
  | .listing => if g.listing then .error .usage else .ok { g with listing := true }
  | .version => .error .version
  | .help => .error .help

/-- Give a setting its value, once. -/
def Given.setting (g : Given) (value : String) : Setting → Except Refusal Given
  | .color =>
    match g.color, color? value with
    | none, some choice => .ok { g with color := some choice }
    | _, _ => .error .usage
  | .prompt =>
    if g.prompt.isSome then .error .usage else .ok { g with prompt := some value }

/-- Give the path. Interactive sessions have none, and the others one that is not empty. -/
def Given.setPath (g : Given) (verb : Verb) (path : String) : Except Refusal Given :=
  if verb = .repl ∨ g.path.isSome ∨ path = "" then .error .usage
  else .ok { g with path := some path }

/-- Give the flags of letters after one dash. -/
def Given.letters (g : Given) (verb : Verb) : List Char → Except Refusal Given
  | [] => .ok g
  | letter :: rest =>
    match shortFlag? verb letter with
    | none => .error .usage
    | some flag =>
      match g.flag flag with
      | .ok g => g.letters verb rest
      | .error refusal => .error refusal

/-- The name of a long option, and its value if one stands after an equals sign. -/
def longParts (chars : List Char) : String × Option String :=
  match Text.splitOnce (· = '=') chars with
  | some (name, value) => (String.ofList name, some (String.ofList value))
  | none => (String.ofList chars, none)

/-- Whether an argument cannot be the value of the option before it. -/
def isDashed (argument : String) : Bool := argument.startsWith "-" && argument ≠ "-"

/-- Read arguments. After two dashes alone, every argument is a path. -/
def readFrom (verb : Verb) (g : Given) (pathsOnly : Bool) :
    List String → Except Refusal (Verb × Given)
  | [] => .ok (verb, g)
  | argument :: rest =>
    if pathsOnly then
      match g.setPath verb argument with
      | .ok g => readFrom verb g true rest
      | .error refusal => .error refusal
    else match argument.toList with
      | ['-', '-'] => readFrom verb g true rest
      | '-' :: '-' :: chars =>
        let (name, value?) := longParts chars
        match longFlag? verb name, setting? verb name, value?, rest with
        | some flag, _, none, rest =>
          match g.flag flag with
          | .ok g => readFrom verb g false rest
          | .error refusal => .error refusal
        | none, some setting, some value, rest =>
          match g.setting value setting with
          | .ok g => readFrom verb g false rest
          | .error refusal => .error refusal
        | none, some setting, none, value :: rest =>
          if isDashed value then .error .usage
          else match g.setting value setting with
            | .ok g => readFrom verb g false rest
            | .error refusal => .error refusal
        | _, _, _, _ => .error .usage
      | '-' :: letter :: letters =>
        match g.letters verb (letter :: letters) with
        | .ok g => readFrom verb g false rest
        | .error refusal => .error refusal
      | _ =>
        if verb = .none ∧ g = {} ∧ argument = helpWord then .error (helpOn rest)
        else match if verb = .none ∧ g = {} then verb? argument else none with
          | some verb => readFrom verb g false rest
          | none =>
            match g.setPath verb argument with
            | .ok g => readFrom verb g false rest
            | .error refusal => .error refusal

/-- The prompt of an interactive session. -/
def defaultPrompt : String := "> "

/-- The command that has been given, unless its path is missing. -/
def Given.command? (g : Given) : Verb → Option Command
  | .none =>
    match g.path with
    | some path => some (.run path false false)
    | none => some (.repl defaultPrompt false)
  | .run => g.path.map fun path => .run path g.trace g.time
  | .repl => some (.repl (g.prompt.getD defaultPrompt) g.trace)
  | .disasm => g.path.map .disasm
  | .asm => g.path.map fun path => .asm path g.trace g.listing

/-- The invocation that arguments ask for. -/
def read (arguments : List String) : Except Refusal Invocation :=
  match readFrom .none {} false arguments with
  | .error refusal => .error refusal
  | .ok (verb, g) =>
    match g.command? verb with
    | none => .error .usage
    | some command =>
      .ok { command, verbosity := g.verbosity, quiet := g.quiet, color := g.color.getD .auto }

end Arguments

end ExprMachine
