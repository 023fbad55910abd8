import ShiftReduce.Command.Options
import ShiftReduce.Machine
import ShiftReduce.Wire.Line

/-! # Running a command

A command checks a table against the rules of a grammar, prints the events of an input, or parses
the input and prints its value. It is a function of its arguments and of the disk.
-/

namespace ShiftReduce

/-- All events that an input still has, and the failure that ends them, if one does. -/
def Input.readAll (i : Input) : List Event × Option Failure :=
  match _h : i.read with
  | (.error f, _) => ([], some f)
  | (.ok none, _) => ([], none)
  | (.ok (some e), j) =>
    let r := j.readAll
    (e :: r.1, r.2)
termination_by i.weight
decreasing_by exact Input.weight_read_lt _h

namespace Command

/-! ## The usage text -/

def usage : String :=
  "usage: lrfc [-h] [-g \x7bassign,demo\x7d] [-t TABLE] [--wire] [-T] [--check] [-D]\n" ++
  "            [file]\n"

def help : String :=
  usage ++
  "\n" ++
  "lrfront tokenizer + LR parser driver\n" ++
  "\n" ++
  "positional arguments:\n" ++
  "  file                  입력 파일 ('-'(stdin)은 지원하지 않음)\n" ++
  "\n" ++
  "options:\n" ++
  "  -h, --help            show this help message and exit\n" ++
  "  -g \x7bassign,demo\x7d, --grammar \x7bassign,demo\x7d\n" ++
  "                        사용할 번들 문법\n" ++
  "  -t TABLE, --table TABLE\n" ++
  "                        LR 테이블 파일 (미지정시 문법의 기본 테이블)\n" ++
  "  --wire                입력이 토크나이저 프로토콜 스트림\n" ++
  "  -T, --dump-tokens     토크나이저 프로토콜 스트림을 출력하고 종료\n" ++
  "  --check               테이블과 리덕션 규칙을 검증하고 종료\n" ++
  "  -D, --debug           디버그 정보를 상세 출력\n"

/-! ## What a command does -/

/-- What a command has written. -/
structure Transcript where
  out : String := ""
  err : String := ""
deriving DecidableEq, Repr

inductive Ending where
  | exit (code : Nat)
  | crashed (f : Failure)
  /-- The machine was stopped before it halted. -/
  | unfinished
deriving DecidableEq, Repr

/-- A piece of a command: it writes, and ends with a result or for good. -/
abbrev Task := ExceptT Ending (StateM Transcript)

def print (line : String) : Task Unit :=
  modify fun t => { t with out := t.out ++ line ++ "\n" }

def complain (line : String) : Task Unit :=
  modify fun t => { t with err := t.err ++ line ++ "\n" }

/-- Ends a command with a failure: a fatal one in one line, any other as it is. -/
def fail {α : Type} (f : Failure) : Task α := do
  if f.isFatal then
    complain (fatalLine f.message)
    throw (.exit 1)
  else throw (.crashed f)

def orFail {α : Type} : Except Failure α → Task α
  | .ok a => return a
  | .error f => fail f

def debugLine (o : Options) (text : String) : Task Unit :=
  if o.debug then complain ("[DEBUG] " ++ text) else return

/-- Where the table comes from: the file that is named, or else the grammar's own. -/
def tableFor (disk : Disk) (g : Grammar) (o : Options) : String × Except Failure Table :=
  match o.table.filter (· ≠ "") with
  | some path => (path, Table.load disk path)
  | none => (g.tablePath, g.table)

/-- The grammar that is asked for. -/
def grammarFor (o : Options) : Except Failure Grammar :=
  match o.grammar with
  | some name => Grammar.find name
  | none => .error (.misuse .noGrammar)

/-- Loads the table and checks it against the rules of the grammar. -/
def prepare (disk : Disk) (o : Options) : Task (Grammar × Table) := do
  let g ← orFail (grammarFor o)
  let (path, loaded) := tableFor disk g o
  let t ← orFail loaded
  debugLine o s!"table loaded | {path} states={t.states.length} actions={t.actions.length}"
  orFail (g.rules.validate t)
  debugLine o s!"registry validated | grammar={g.name} rules={g.rules.size}"
  if o.debug then
    complain "\n[Parsing Table]"
    complain t.summary
  return (g, t)

def check (disk : Disk) (o : Options) : Task Nat := do
  let (g, t) ← prepare disk o
  print s!"[CHECK OK] grammar={g.name} states={t.states.length} rules={t.rules.length}"
  return 0

def dumpTokens (disk : Disk) (o : Options) (file : String) : Task Nat := do
  let input ← orFail (Input.ofFile (disk.file file) o.wire).opened
  let (events, failure) := input.readAll
  for e in events do
    print (Wire.encode e)
  match failure with
  | some f => fail f
  | none => return 0

def printNote : Note → Task Unit
  | .trace text => complain ("[DEBUG] " ++ text)
  | .report e => complain e.toText

def parseFile (fuel : Nat) (disk : Disk) (o : Options) (file : String) : Task Nat := do
  let (g, t) ← prepare disk o
  let m : Machine Value := { table := t, rules := g.rules, debug := o.debug }
  let stream := Stream.ofInputs [Input.ofFile (disk.file file) o.wire]
  match m.parse fuel (m.start stream) with
  | none => throw .unfinished
  | some (result, c) =>
    for n in c.notes.reverse do
      printNote n
    match ← orFail result with
    | .accepted v =>
      print (← orFail (g.render (Value.ofOperand v))).plain
      return 0
    | .rejected _ => return 1

def command (fuel : Nat) (disk : Disk) (o : Options) : Task Nat :=
  let file := o.file.getD ""
  if o.check then check disk o
  else if o.dumpTokens then dumpTokens disk o file
  else parseFile fuel disk o file

/-- Runs a command line. The machine takes at most `fuel` steps. -/
def run (fuel : Nat) (disk : Disk) (args : List String) : Ending × Transcript :=
  match Options.ofArguments args with
  | .error .help => (.exit 0, { out := help })
  | .error (.misused message) => (.exit 1, { err := usage ++ fatalLine message ++ "\n" })
  | .ok o =>
    match (command fuel disk o).run.run {} with
    | (.ok code, t) => (.exit code, t)
    | (.error e, t) => (e, t)

end Command

end ShiftReduce
