namespace AdmissionCache

inductive Command
  | run
  | checkConfig
  deriving DecidableEq, Repr

def Command.name : Command → String
  | .run => "run"
  | .checkConfig => "check-config"

def Command.about : Command → String
  | .run => "Run the project cache and the admission API"
  | .checkConfig => "Validate a config file and exit"

def Command.all : List Command := [.run, .checkConfig]

def Command.ofName? (name : String) : Option Command := Command.all.find? (·.name == name)

/-- What help is about: the program, one of its commands, or help itself. -/
inductive HelpTopic
  | program
  | command (command : Command)
  | help
  | helpOn (topic : String) (about : String)
  deriving DecidableEq, Repr

inductive Invocation
  | command (command : Command) (config : String)
  | help (topic : HelpTopic)
  | version
  | misuse
  deriving DecidableEq, Repr

namespace Invocation

def helpAbout : String := "Print this message or the help of the given subcommand(s)"

def ofHelp : List String → Invocation
  | [] => .help .program
  | name :: rest =>
    match Command.ofName? name with
    | some c => if rest.isEmpty then .help (.command c) else .misuse
    | none =>
      if name ≠ "help" then .misuse
      else
        match rest with
        | [] => .help .help
        | [name] =>
          match Command.ofName? name with
          | some c => .help (.helpOn c.name c.about)
          | none => if name = "help" then .help (.helpOn "help" helpAbout) else .misuse
        | _ => .misuse

/-- Whether an argument is an option or the mark that ends options. A lone hyphen is
neither. -/
def isOption (arg : String) : Bool := arg.startsWith "-" && arg ≠ "-"

/-- Takes a path that belongs to an option. There is one such option at most, and its
path is not empty. -/
def takePath (config : Option String) (path : String) : Option String :=
  if config.isSome || path.isEmpty then none else some path

/-- The path that an argument holds behind its option. -/
def attachedPath? (arg : String) : Option String :=
  if arg.startsWith "--config=" then some (arg.drop 9).toString
  else if arg.startsWith "-c=" then some (arg.drop 3).toString
  else if arg.startsWith "-c" && arg ≠ "-c" then some (arg.drop 2).toString
  else none

/-- The end of the arguments of a command, which need a path. -/
def finish (c : Command) : Option String → Invocation
  | some path => .command c path
  | none => .misuse

/-- Reads the arguments of a command. `config` is the path given so far. -/
def ofArguments (c : Command) (config : Option String) : List String → Invocation
  | [] => finish c config
  | arg :: rest =>
    if arg = "--" then if rest.isEmpty then finish c config else .misuse
    else if arg = "--help" || arg.startsWith "-h" then .help (.command c)
    else
      match attachedPath? arg with
      | some path =>
        match takePath config path with
        | some path => ofArguments c (some path) rest
        | none => .misuse
      | none =>
        if arg ≠ "--config" && arg ≠ "-c" then .misuse
        else
          match rest with
          | [] => .misuse
          | path :: rest =>
            match if isOption path then none else takePath config path with
            | some path => ofArguments c (some path) rest
            | none => .misuse

def ofArgs : List String → Invocation
  | [] => .misuse
  | arg :: rest =>
    if arg = "help" then ofHelp rest
    else
      match Command.ofName? arg with
      | some c => ofArguments c none rest
      | none =>
        if arg = "--help" || arg.startsWith "-h" then .help .program
        else if arg = "--version" || arg.startsWith "-V" then .version
        else .misuse

end Invocation

namespace HelpTopic

def commandLine (name about : String) : String :=
  "  " ++ name ++ String.ofList (List.replicate (14 - name.length) ' ') ++ about ++ "\n"

def commandList : String :=
  "Commands:\n" ++ String.join (Command.all.map fun c => commandLine c.name c.about) ++
    commandLine "help" Invocation.helpAbout

def text : HelpTopic → String
  | .program =>
    "Project config cache and admission service\n\nUsage: gatekeeper <COMMAND>\n\n" ++ commandList ++
      "\nOptions:\n  -h, --help     Print help\n  -V, --version  Print version\n"
  | .command c =>
    c.about ++ "\n\nUsage: gatekeeper " ++ c.name ++
      " --config <CONFIG>\n\nOptions:\n  -c, --config <CONFIG>  \n  -h, --help             Print help\n"
  | .help =>
    Invocation.helpAbout ++ "\n\nUsage: gatekeeper help [COMMAND]\n\n" ++ commandList
  | .helpOn topic about => about ++ "\n\nUsage: gatekeeper help " ++ topic ++ "\n"

end HelpTopic

def versionText : String := "gatekeeper 0.1.0\n"

end AdmissionCache
