namespace DuplicateBlocks.Command

inductive UsageError where
  | requiresValue (option : String)
  | notAnInteger (option : String)
  | belowOne (option : String)
  | aboveMost (option : String) (most : Nat)
  | notANumber (option : String)
  | notAPercentage (option : String)
  | emptyValue (option : String)
  | takesNoValue (option : String)
  | unknownOption (option : String)
  | verboseAndQuiet
  | ruleAndStaged
  | rootsBesideMode
  | perFileWithRule
  deriving DecidableEq, Repr

def UsageError.message : UsageError → String
  | requiresValue o => o ++ " requires a value"
  | notAnInteger o => o ++ " must be a non-negative integer"
  | belowOne o => o ++ " must be >= 1"
  | aboveMost o n => o ++ " must be <= " ++ Nat.repr n
  | notANumber o => o ++ " must be a number"
  | notAPercentage o => o ++ " must be 0..100"
  | emptyValue o => o ++ " must not be empty"
  | takesNoValue o => o ++ " does not take a value"
  | unknownOption o => "unknown option: " ++ o
  | verboseAndQuiet => "--verbose conflicts with --quiet"
  | ruleAndStaged => "--rule conflicts with --staged"
  | rootsBesideMode => "roots cannot be combined with --rule or --staged"
  | perFileWithRule => "--per-file has no effect with --rule"

def programName : String := "dup-block-check"

def version : String := "0.1.0"

def helpText : String :=
  "dup-block-check (similar code blocks, including renamed copies)\n" ++
  "\n" ++
  "Usage:\n" ++
  "  dup-block-check [options] [root ...]\n" ++
  "  dup-block-check --rule <file> [options]\n" ++
  "  dup-block-check --staged [options]\n" ++
  "\n" ++
  "Modes:\n" ++
  "  [root ...]              Pool every source file under the roots (default: .)\n" ++
  "  --rule <file>           Scan one file on its own; report the first group only\n" ++
  "  --staged                Pool the files staged in the git index of the current dir\n" ++
  "  --per-file              Scan each file on its own instead of pooling\n" ++
  "\n" ++
  "Options:\n" ++
  "  --config <file.json>    Read engine options from a JSON file\n" ++
  "  --min-lines <n>         Lines per block (default: 10, max: 1000)\n" ++
  "  --threshold <pct>       Minimum similarity 0..100 (default: 80)\n" ++
  "  --exclude <glob>        Skip sources matching a gitignore-style glob (repeatable)\n" ++
  "  --max-blocks <n>        Stop extracting after n blocks (default: 10000)\n" ++
  "  --max-comparisons <n>   Stop comparing after n pairs (default: 1000000)\n" ++
  "  --ext <ext>             Source extension to scan (repeatable; default: js jsx ts tsx mjs cjs)\n" ++
  "  --ignore-dir <name>     Add an ignored directory name (repeatable)\n" ++
  "  --no-gitignore          Do not respect .gitignore rules\n" ++
  "  --max-file-size <n>     Skip files larger than n bytes (default: 10485760)\n" ++
  "  --max-files <n>         Stop after reading n files\n" ++
  "  --max-total-bytes <n>   Skip files that would exceed total read bytes\n" ++
  "  --json                  Output JSON\n" ++
  "  --stats                 Include scan stats (JSON) or print to stderr\n" ++
  "  --warn-only             Report duplicates but exit 0\n" ++
  "  -v, --verbose           Debug logging on stderr\n" ++
  "  -q, --quiet             Only log errors\n" ++
  "  -V, --version           Show version\n" ++
  "  -h, --help              Show help\n" ++
  "\n" ++
  "Notes:\n" ++
  "  - Options given as flags override the config file\n" ++
  "  - RUST_LOG controls log filtering unless -v or -q is given\n" ++
  "  - Exit codes: 0 clean, 1 duplicates found or error, 2 usage error\n" ++
  "\n" ++
  "Examples:\n" ++
  "  dup-block-check src\n" ++
  "  dup-block-check --rule src/cart.ts --min-lines 6\n" ++
  "  dup-block-check --staged --warn-only\n" ++
  "  dup-block-check --exclude 'generated/' --json --stats .\n" ++
  "\n"

end DuplicateBlocks.Command
