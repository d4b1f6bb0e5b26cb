import MacroAsm.Program.Linking

set_option autoImplicit false

/-! # Native output

The program in the assembler's own language: its native lines, or its annotated text followed by the
program memory in comments. -/

namespace MacroAsm

namespace Program

/-- Lines, each with its end. -/
def unlines (lines : List String) : String :=
  String.join (lines.map (· ++ "\n"))

/-- The native lines. -/
def nativeText (p : Program) : String :=
  unlines p.lines

/-- The lines of the annotated text, and behind them the program memory without and with labels. -/
def annotatedLines (p : Program) : List String :=
  p.listing ++ ["// ROM Instructions"] ++ p.rom.map (fun w => s!"// {w.written}") ++
    ["// ROM Instructions LBL"] ++ p.romWithLabels.map (fun e => s!"// {e.written}")

/-- The annotated text. -/
def annotatedText (p : Program) : String :=
  unlines p.annotatedLines

end Program

end MacroAsm
