/-! # Commands and their help

The command line has a program and two commands, each with options and a help text. The usage, which
is printed before an error, is the part of the help up to the first empty line.
-/

namespace GuidedTrack

inductive Command.Effect where
  | help
  | flag
  | operand (choices : List String)
  deriving DecidableEq, Repr

structure Command.Switch where
  spellings : List String
  effect : Command.Effect
  deriving DecidableEq, Repr

inductive Command.Tool where
  | program
  | lint
  | format
  deriving DecidableEq, Repr

namespace Command

namespace Switch

def name (switch : Switch) : String :=
  "/".intercalate switch.spellings

end Switch

def help : Switch := ⟨["-h", "--help"], .help⟩

def fix : Switch := ⟨["--fix"], .flag⟩

def check : Switch := ⟨["--check"], .flag⟩

def config : Switch := ⟨["--config"], .operand []⟩

def listing : Switch := ⟨["--format"], .operand ["stylish", "json"]⟩

namespace Tool

def name : Tool → String
  | program => "gtlint"
  | lint => "gtlint lint"
  | format => "gtlint format"

def switches : Tool → List Switch
  | program => [help]
  | lint => [help, fix, config, listing]
  | format => [help, check, config]

def usage : Tool → List String
  | program => ["usage: gtlint [-h] COMMAND ..."]
  | lint =>
    ["usage: gtlint lint [-h] [--fix] [--config CONFIG] [--format \x7bstylish,json\x7d]",
      "                   [paths ...]"]
  | format => ["usage: gtlint format [-h] [--check] [--config CONFIG] [paths ...]"]

def manual : Tool → List String
  | program =>
    ["GTLint: linter and formatter for GuidedTrack programs",
      "",
      "positional arguments:",
      "  COMMAND",
      "    lint      Report problems in GuidedTrack files",
      "    format    Format GuidedTrack files in place",
      "",
      "options:",
      "  -h, --help  show this help message and exit"]
  | lint =>
    ["Lint .gt files and report problems found by the enabled rules.",
      "",
      "positional arguments:",
      "  paths                 Files or directories to lint (default: current",
      "                        directory)",
      "",
      "options:",
      "  -h, --help            show this help message and exit",
      "  --fix                 Apply automatic fixes and write the files back",
      "  --config CONFIG       Path to a configuration file (default: nearest",
      "                        .gtlint.yaml)",
      "  --format \x7bstylish,json\x7d",
      "                        Output format (default: stylish)"]
  | format =>
    ["Rewrite the whitespace of .gt files according to the formatter settings.",
      "",
      "positional arguments:",
      "  paths            Files or directories to format (default: current directory)",
      "",
      "options:",
      "  -h, --help       show this help message and exit",
      "  --check          List files that would change instead of writing them",
      "  --config CONFIG  Path to a configuration file (default: nearest",
      "                   .gtlint.yaml)"]

def helpLines (tool : Tool) : List String :=
  tool.usage ++ "" :: tool.manual

end Tool
end Command
end GuidedTrack
