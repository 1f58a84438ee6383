/-! The command line: its commands and options, how arguments are read, and its help texts. -/
namespace VectorHeap.CommandLine

inductive Topic
  | top | scenarios | churn | inspect | help
deriving DecidableEq

structure ChurnOptions where
  count : Nat := 100000
  length : Nat := 8
  /-- Seconds to wait for the worker. -/
  wait : Nat := 60
deriving DecidableEq

inductive Request
  | scenarios
  | churn (options : ChurnOptions)
  | inspect
  | version
  | help (topic : Topic)
deriving DecidableEq

structure Invocation where
  request : Request
  addressIndex : Bool := false
deriving DecidableEq

def number? (s : String) : Option Nat :=
  let digits :=
    match s.toList with
    | '+' :: rest => rest
    | cs => cs
  if digits.isEmpty || !digits.all (·.isDigit) then none
  else
    let n := digits.foldl (fun n d => 10 * n + (d.toNat - 48)) 0
    if n < UInt64.size then some n else none

/-- What an argument is once its dashes are read. A long option may carry a value behind an equals
sign. -/
inductive Word
  | long (name : String) (value : Option String)
  | short (flags : List Char)
  | escape
  | plain (s : String)

def Word.ofString (s : String) : Word :=
  match s.toList with
  | ['-', '-'] => .escape
  | '-' :: '-' :: cs =>
    let name := cs.takeWhile (· != '=')
    match cs.dropWhile (· != '=') with
    | [] => .long (String.ofList name) none
    | _ :: value => .long (String.ofList name) (some (String.ofList value))
  | '-' :: c :: cs => .short (c :: cs)
  | _ => .plain s

def Word.isPlain : Word → Bool
  | .plain _ => true
  | _ => false

/-- The options seen so far of a command. Each may be given once. -/
structure Seen where
  addressIndex : Bool := false
  count : Option Nat := none
  length : Option Nat := none
  wait : Option Nat := none

def Seen.options (s : Seen) : ChurnOptions :=
  let standard : ChurnOptions := {}
  { count := s.count.getD standard.count, length := s.length.getD standard.length,
    wait := s.wait.getD standard.wait }

/-- Stores a number option. None for an unknown one, one seen before, or text that is no number. -/
def Seen.store? (s : Seen) (name value : String) : Option Seen :=
  match name, s with
  | "count", { count := none, .. } => (number? value).map (fun n => { s with count := some n })
  | "len", { length := none, .. } => (number? value).map (fun n => { s with length := some n })
  | "wait", { wait := none, .. } => (number? value).map (fun n => { s with wait := some n })
  | _, _ => none

def isNumberOption (name : String) : Bool := name == "count" || name == "len" || name == "wait"

/-- What the options of a command come to: the options, or a request for help. -/
inductive Options
  | given (s : Seen)
  | help

/-- Reads the options behind a command name. Only churn has number options, and nothing may stand
behind the options. -/
def options? (isChurn : Bool) (s : Seen) : List String → Option Options
  | [] => some (.given s)
  | arg :: rest =>
    match Word.ofString arg with
    | .escape => if rest.isEmpty then some (.given s) else none
    | .long "help" none | .short ('h' :: _) => some .help
    | .long "address-index" none =>
      if s.addressIndex then none else options? isChurn { s with addressIndex := true } rest
    | .long name (some value) =>
      if isChurn then (s.store? name value).bind (fun s => options? isChurn s rest) else none
    | .long name none =>
      match rest with
      | value :: rest =>
        if isChurn && isNumberOption name && (Word.ofString value).isPlain then
          (s.store? name value).bind (fun s => options? isChurn s rest)
        else none
      | [] => none
    | _ => none

def topic? : String → Option Topic
  | "scenarios" => some .scenarios
  | "churn" => some .churn
  | "inspect" => some .inspect
  | "help" => some .help
  | _ => none

def helpTopic? : List String → Option Topic
  | [] => some .top
  | [name] => topic? name
  | _ => none

def command? (addressIndex : Bool) (topic : Topic) (rest : List String) : Option Invocation :=
  match topic with
  | .help => (helpTopic? rest).map (fun t => ⟨.help t, addressIndex⟩)
  | topic => do
    match ← options? (topic = .churn) {} rest with
    | .help => return ⟨.help topic, addressIndex⟩
    | .given s =>
      let request :=
        match topic with
        | .churn => Request.churn s.options
        | .inspect => .inspect
        | _ => .scenarios
      return ⟨request, addressIndex || s.addressIndex⟩

def parse? (addressIndex : Bool) : List String → Option Invocation
  | [] => some ⟨.scenarios, addressIndex⟩
  | arg :: rest =>
    match Word.ofString arg with
    | .escape => if rest.isEmpty then some ⟨.scenarios, addressIndex⟩ else none
    | .long "help" none | .short ('h' :: _) => some ⟨.help .top, addressIndex⟩
    | .long "version" none | .short ('V' :: _) => some ⟨.version, addressIndex⟩
    | .long "address-index" none => if addressIndex then none else parse? true rest
    | .plain name => (topic? name).bind (fun topic => command? addressIndex topic rest)
    | _ => none

def versionText : String := "rvec-cli 0.1.0\n"

def helpLines : Topic → List String
  | .top =>
    ["Diagnostic driver for rvec native vector storage", "",
      "Usage: rvec [OPTIONS] [COMMAND]", "",
      "Commands:",
      "  scenarios  Run the sharing and promotion scenarios",
      "  churn      Promote and drop vectors, then print the inspector snapshot",
      "  inspect    Print the inspector snapshot of the global context",
      "  help       Print this message or the help of the given subcommand(s)", "",
      "Options:",
      "      --address-index  Keep a data-address index for reverse lookups",
      "  -h, --help           Print help",
      "  -V, --version        Print version"]
  | .scenarios =>
    ["Run the sharing and promotion scenarios", "",
      "Usage: rvec scenarios [OPTIONS]", "",
      "Options:",
      "      --address-index  Keep a data-address index for reverse lookups",
      "  -h, --help           Print help"]
  | .churn =>
    ["Promote and drop vectors, then print the inspector snapshot", "",
      "Usage: rvec churn [OPTIONS]", "",
      "Options:",
      "      --address-index  Keep a data-address index for reverse lookups",
      "      --count <COUNT>  [default: 100000]",
      "      --len <LEN>      [default: 8]",
      "      --wait <WAIT>    Seconds to wait for the reclamation worker [default: 60]",
      "  -h, --help           Print help"]
  | .inspect =>
    ["Print the inspector snapshot of the global context", "",
      "Usage: rvec inspect [OPTIONS]", "",
      "Options:",
      "      --address-index  Keep a data-address index for reverse lookups",
      "  -h, --help           Print help"]
  | .help =>
    ["Print this message or the help of the given subcommand(s)", "",
      "Usage: rvec help [COMMAND]...", "",
      "Arguments:",
      "  [COMMAND]...  Print help for the subcommand(s)"]

def helpText (topic : Topic) : String := String.join ((helpLines topic).map (· ++ "\n"))

end VectorHeap.CommandLine
