import ShiftReduce.Grammar.Bundled

/-! # Reading the command line

Options may stand anywhere in front of a `--`. A long option may be shortened as long as it stays
the only one that fits, a value may be attached to its option, and short options without a value may
be put together. All arguments are told apart before the first of them takes effect.
-/

namespace ShiftReduce.Command

/-! ## The options -/

inductive Switch where
  | help
  | grammar
  | table
  | wire
  | dumpTokens
  | check
  | debug
deriving DecidableEq, Repr

/-- Every spelling of every option, in the order in which they are listed. -/
def spellings : List (List Char × Switch) :=
  [("-h", .help), ("--help", .help), ("-g", .grammar), ("--grammar", .grammar), ("-t", .table),
   ("--table", .table), ("--wire", .wire), ("-T", .dumpTokens), ("--dump-tokens", .dumpTokens),
   ("--check", .check), ("-D", .debug), ("--debug", Switch.debug)].map
    fun (name, switch) => (name.toList, switch)

namespace Switch

def takesValue : Switch → Bool
  | .grammar | .table => true
  | _ => false

/-- The spellings of an option, as messages name it. -/
def title (s : Switch) : String :=
  "/".intercalate ((spellings.filter (·.2 = s)).map fun e => String.ofList e.1)

end Switch

/-- What a command line asks for. An option whose value is left out has none. -/
structure Options where
  file : Option String := none
  grammar : Option String := some "demo"
  table : Option String := none
  wire : Bool := false
  dumpTokens : Bool := false
  check : Bool := false
  debug : Bool := false
deriving DecidableEq, Repr

/-- Why a command line leads to no run. -/
inductive Halt where
  | help
  | misused (message : String)
deriving DecidableEq, Repr

def misusedOption (s : Switch) (message : String) : Halt :=
  .misused s!"argument {s.title}: {message}"

/-! ## Telling arguments apart -/

inductive Argument where
  /-- The first `--`, after which there are words only. -/
  | separator
  | word (text : String)
  /-- An option with the text attached to it, by an equals sign or directly. -/
  | option (switch : Switch) (spelling : List Char) (attached : Option (List Char))
  | unknown (text : String)
deriving DecidableEq, Repr

/-- A text in front of its first equals sign. -/
def beforeSign (cs : List Char) : List Char := cs.takeWhile (· != '=')

/-- The text after the first equals sign. -/
def afterSign? (cs : List Char) : Option (List Char) :=
  match cs.dropWhile (· != '=') with
  | '=' :: text => some text
  | _ => none

/-- All options that an argument can mean, with its attached text. -/
def candidates (cs : List Char) : List (Switch × List Char × Option (List Char)) :=
  match cs with
  | '-' :: '-' :: _ =>
    let fitting := spellings.filter fun e => (beforeSign cs).isPrefixOf e.1
    fitting.map fun e => (e.2, e.1, afterSign? cs)
  | d :: c :: text =>
    (spellings.filter fun e => e.1 = [d, c]).map fun e => (e.2, e.1, some text)
  | _ => []

/-- A minus sign and digits, with at most one point. A line feed at the end does not count. -/
def isNegativeNumber (cs : List Char) : Bool :=
  let cs := if cs.getLast? = some '\n' then cs.dropLast else cs
  match cs with
  | '-' :: r =>
    let rest := r.dropWhile Text.isDecimal
    (!r.isEmpty && rest.isEmpty) ||
      (match rest with
        | '.' :: ds => !ds.isEmpty && ds.all Text.isDecimal
        | _ => false)
  | _ => false

/-- Tells what an argument in front of the separator is. -/
def classify (arg : String) : Except Halt Argument :=
  let cs := arg.toList
  if cs.head? ≠ some '-' then .ok (.word arg)
  else
    match spellings.lookup cs with
    | some switch => .ok (.option switch cs none)
    | none =>
      if cs.length = 1 then .ok (.word arg)
      else
        match afterSign? cs, spellings.lookup (beforeSign cs) with
        | some attached, some switch => .ok (.option switch (beforeSign cs) (some attached))
        | _, _ =>
          match candidates cs with
          | [] =>
            if isNegativeNumber cs || cs.contains ' ' then .ok (.word arg) else .ok (.unknown arg)
          | [(switch, spelling, attached)] => .ok (.option switch spelling attached)
          | several =>
            let names := ", ".intercalate (several.map fun e => String.ofList e.2.1)
            .error (.misused s!"ambiguous option: {arg} could match {names}")

def classifyAll : List String → Except Halt (List (String × Argument))
  | [] => .ok []
  | arg :: args =>
    if arg = "--" then .ok ((arg, .separator) :: args.map fun a => (a, .word a))
    else
      match classify arg, classifyAll args with
      | .ok a, .ok rest => .ok ((arg, a) :: rest)
      | .ok _, .error h => .error h
      | .error h, _ => .error h

/-! ## Options put together -/

/-- What an argument with options comes down to: options without a value, and perhaps one more that
takes the text attached to it or the next argument. -/
inductive Cluster where
  | plain (switches : List Switch)
  | value (switches : List Switch) (last : Switch) (text : String)
  | awaiting (switches : List Switch) (last : Switch)
deriving DecidableEq, Repr

/-- Adds a switch in front of a cluster. -/
def Cluster.cons (s : Switch) : Cluster → Cluster
  | .plain ss => .plain (s :: ss)
  | .value ss last text => .value (s :: ss) last text
  | .awaiting ss last => .awaiting (s :: ss) last

def ignored (s : Switch) (text : List Char) : Halt :=
  misusedOption s ("ignored explicit argument " ++ Text.display (String.ofList text))

/-- Takes the short options in `text` apart, which is attached to `s`. -/
def splitCluster (s : Switch) : List Char → Except Halt Cluster
  | [] => .error (ignored s [])
  | c :: rest =>
    match spellings.lookup ['-', c] with
    | none => .error (ignored s (c :: rest))
    | some next =>
      if next.takesValue then
        .ok (if rest.isEmpty then .awaiting [s] next else .value [s] next (String.ofList rest))
      else if rest.isEmpty then .ok (.plain [s, next])
      else (splitCluster next rest).map (Cluster.cons s)

/-- The options of an argument. Only a short one can have others attached to it. -/
def cluster (s : Switch) (isShort : Bool) : Option (List Char) → Except Halt Cluster
  | none => .ok (if s.takesValue then .awaiting [] s else .plain [s])
  | some text =>
    if s.takesValue then .ok (.value [] s (String.ofList text))
    else if isShort then splitCluster s text
    else .error (ignored s text)

/-! ## Taking effect -/

def applySwitch (o : Options) : Switch → Except Halt Options
  | .help => .error .help
  | .wire => .ok { o with wire := true }
  | .dumpTokens => .ok { o with dumpTokens := true }
  | .check => .ok { o with check := true }
  | .debug => .ok { o with debug := true }
  | .grammar | .table => .ok o

/-- Sets the value of an option. A separator in its place leaves the value out. -/
def applyValue (o : Options) (s : Switch) (text : String) : Except Halt Options :=
  let value := if text = "--" then none else some text
  match s with
  | .grammar =>
    if value.all Grammar.names.contains then .ok { o with grammar := value }
    else
      let names := ", ".intercalate (Grammar.names.map Text.display)
      .error (misusedOption s s!"invalid choice: {Text.display text} (choose from {names})")
  | .table => .ok { o with table := value }
  | _ => .ok o

def applySwitches (o : Options) : List Switch → Except Halt Options
  | [] => .ok o
  | s :: ss =>
    match applySwitch o s with
    | .ok o => applySwitches o ss
    | .error h => .error h

/-! ## The arguments in their order -/

/-- What has been read so far: the options, whether the file has been named, and the arguments that
have no meaning. -/
structure Progress where
  options : Options := {}
  named : Bool := false
  extras : List String := []
deriving DecidableEq, Repr

namespace Progress

def extra (p : Progress) (arg : String) : Progress := { p with extras := p.extras ++ [arg] }

def name (p : Progress) (file : String) : Progress :=
  { p with options := { p.options with file := some file }, named := true }

def onOptions (p : Progress) (r : Except Halt Options) : Except Halt Progress :=
  r.map fun o => { p with options := o }

/-- Reads what stands behind the last option. A separator next to the file belongs to it. -/
def finish (p : Progress) (args : List (String × Argument)) : Progress :=
  let left (q : Progress) (rest : List (String × Argument)) : Progress :=
    { q with extras := q.extras ++ rest.map Prod.fst }
  if p.named then left p args
  else
    match args with
    | (_, .separator) :: (file, _) :: rest => left (p.name file) rest
    | [(_, .separator)] => p
    | (file, _) :: (_, .separator) :: rest => left (p.name file) rest
    | (file, _) :: rest => left (p.name file) rest
    | [] => p

end Progress

def isOption : Argument → Bool
  | .option .. | .unknown _ => true
  | _ => false

/-- Reads arguments one after the other. -/
def readArguments (p : Progress) : List (String × Argument) → Except Halt Progress
  | [] => .ok (p.finish [])
  | (arg, a) :: rest =>
    match a with
    | .unknown _ => readArguments (p.extra arg) rest
    | .option s spelling attached =>
      match cluster s (spelling.length == 2) attached with
      | .error h => .error h
      | .ok (.plain ss) =>
        match p.onOptions (applySwitches p.options ss) with
        | .ok p => readArguments p rest
        | .error h => .error h
      | .ok (.value ss last text) =>
        match p.onOptions ((applySwitches p.options ss).bind fun o => applyValue o last text) with
        | .ok p => readArguments p rest
        | .error h => .error h
      | .ok (.awaiting ss last) =>
        match rest with
        | (_, .word text) :: rest =>
          match p.onOptions ((applySwitches p.options ss).bind fun o => applyValue o last text) with
          | .ok p => readArguments p rest
          | .error h => .error h
        | _ => .error (misusedOption last "expected one argument")
    | _ =>
      if rest.any fun e => isOption e.2 then
        readArguments (if p.named then p.extra arg else p.name arg) rest
      else .ok (p.finish ((arg, a) :: rest))

/-- Checks what the options ask for as a whole. -/
def checked (p : Progress) : Except Halt Options :=
  let o := p.options
  if !p.extras.isEmpty then
    .error (.misused ("unrecognized arguments: " ++ " ".intercalate p.extras))
  else if o.file = some "-" then .error (.misused "reading from standard input is not supported")
  else if o.file.isNone && !o.check then
    .error (.misused "the following arguments are required: file")
  else .ok o

def Options.ofArguments (args : List String) : Except Halt Options :=
  match classifyAll args with
  | .error h => .error h
  | .ok args =>
    match readArguments {} args with
    | .error h => .error h
    | .ok p => checked p

end ShiftReduce.Command
