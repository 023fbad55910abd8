/-! # Tokens and events

A token is a terminal's name and the text that stands for it. An event is a token, or a mark that
gives the line of the tokens after it.
-/

namespace ShiftReduce

structure Token where
  kind : String
  text : String
deriving DecidableEq, Repr, Inhabited

inductive Event where
  | token (t : Token)
  | mark (line : Int)
deriving DecidableEq, Repr

/-- Ends an input. It stands in no text, and is added where an input runs out. -/
def Token.eof : Token := ⟨"eof", ""⟩

/-! ## The vocabulary of the scanner -/

def keywords : List (String × String) :=
  [("set", "kw_set"), ("unset", "kw_unset")]

def punctuation : List (Char × String) :=
  [('[', "bracket_open"), (']', "bracket_close"), ('{', "brace_open"), ('}', "brace_close"),
   ('(', "paren_open"), (')', "paren_close"), ('&', "ampersand"), ('*', "asterisk"),
   ('\\', "backslash"), ('^', "caret"), (':', "colon"), (',', "comma"), ('$', "dollar"),
   ('=', "equal"), ('-', "minus"), ('.', "period"), ('|', "vert"), ('+', "plus"),
   ('?', "question"), ('/', "slash"), (';', "semicolon")]

/-- Every terminal that a scanned text or a token stream can hold. -/
def terminals : List String :=
  ["kw_set", "kw_unset", "ident", "float", "integer", "string_d", "string_s"] ++
    punctuation.map Prod.snd ++ ["nl", "eof", "invalid"]

end ShiftReduce
