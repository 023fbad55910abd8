import ShiftReduce.Grammar.Bundled

/-! # The table of the settings language

The table that its text is read as.
-/

namespace ShiftReduce

namespace Table

theorem parse_of_toOption {text name : String} {start : Int} {t : Table}
    (h : (ofText text name start).toOption = some t) : parse text name start = .ok t := by
  unfold parse
  cases ht : ofText text name start with
  | error f => simp [ht, Except.toOption] at h
  | ok t' =>
    rw [ht, Except.toOption, Option.some.injEq] at h
    rw [h]

end Table

namespace Settings

def table : Table where
  actions :=
    [((0, "kw_set"), .reduce 1), ((0, "kw_unset"), .reduce 1), ((0, "eof"), .reduce 1),
     ((1, "eof"), .accept), ((1, "kw_set"), .shift 2), ((1, "kw_unset"), .shift 3),
     ((2, "ident"), .shift 5), ((3, "ident"), .shift 6),
     ((4, "kw_set"), .reduce 2), ((4, "kw_unset"), .reduce 2), ((4, "eof"), .reduce 2),
     ((5, "equal"), .shift 7), ((6, "semicolon"), .shift 8),
     ((7, "integer"), .shift 10), ((7, "float"), .shift 11), ((7, "string_d"), .shift 12),
     ((7, "string_s"), .shift 13), ((7, "ident"), .shift 14),
     ((8, "kw_set"), .reduce 4), ((8, "kw_unset"), .reduce 4), ((8, "eof"), .reduce 4),
     ((9, "semicolon"), .shift 15), ((10, "semicolon"), .reduce 5),
     ((11, "semicolon"), .reduce 6), ((12, "semicolon"), .reduce 7),
     ((13, "semicolon"), .reduce 8), ((14, "semicolon"), .reduce 9),
     ((15, "kw_set"), .reduce 3), ((15, "kw_unset"), .reduce 3), ((15, "eof"), .reduce 3)]
  gotos := [((0, "L"), 1), ((1, "stmt"), 4), ((7, "value"), 9)]
  start := 0
  name := "<grammars>/assign.tbl"

theorem ofText_tableText :
    (Table.ofText tableText "<grammars>/assign.tbl" 0).toOption = some table := by
  unfold Table.ofText tableText
  -- Line by line: the characters of one long text would be slow to find.
  simp only [-String.reduceAppend, String.toList_append]
  decide +kernel

theorem table_settings : Grammar.settings.table = .ok table := by
  have hpath : Grammar.settings.tablePath = "<grammars>/assign.tbl" := by decide
  rw [Grammar.table, hpath]
  exact Table.parse_of_toOption ofText_tableText

theorem validate_rules : rules.validate table = .ok () := rfl

end Settings

end ShiftReduce
