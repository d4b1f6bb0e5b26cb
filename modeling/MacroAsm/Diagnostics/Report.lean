import MacroAsm.Diagnostics.Message

set_option autoImplicit false

/-! # Reports

The messages of a compilation, in the order in which they were found. Everything asked of a report
is asked of that list (`Report.toList`). -/

namespace MacroAsm

/-- Messages in the order in which they were found. -/
structure Report where
  messages : Array Message
  deriving DecidableEq, Repr

namespace Report

/-- The report without messages. -/
def empty : Report := ⟨#[]⟩

/-- A report of some messages. -/
def ofList (ms : List Message) : Report := ⟨ms.toArray⟩

/-- The messages of a report. -/
def toList (r : Report) : List Message := r.messages.toList

/-- A report with one more message at its end. -/
def push (r : Report) (m : Message) : Report := ⟨r.messages.push m⟩

/-- A report with the messages of another behind its own. -/
def append (r s : Report) : Report := ⟨r.messages ++ s.messages⟩

instance : Append Report := ⟨append⟩

@[ext] theorem ext {r s : Report} (h : r.toList = s.toList) : r = s := by
  cases r; cases s; congr; exact Array.toList_inj.1 h

@[simp] theorem toList_empty : empty.toList = [] := rfl

@[simp] theorem toList_ofList (ms : List Message) : (ofList ms).toList = ms := by
  simp only [ofList, toList]

@[simp] theorem toList_push (r : Report) (m : Message) : (r.push m).toList = r.toList ++ [m] := by
  simp only [push, toList, Array.toList_push]

@[simp] theorem toList_append (r s : Report) : (r ++ s).toList = r.toList ++ s.toList :=
  Array.toList_append

/-! ## Questions -/

/-- Whether there are no messages. -/
def isEmpty (r : Report) : Bool :=
  r.messages.isEmpty

/-- The gravest level of a message, or `ok` without messages. -/
def status (r : Report) : Level :=
  match r.toList.map Message.level with
  | [] => .ok
  | l :: ls => ls.foldl Level.max l

/-- Whether some message is at or above an exit level. Nothing reaches the level `none`. -/
def reached (r : Report) (exitLevel : Level) : Bool :=
  exitLevel != .none && r.toList.any fun m => exitLevel ≤ m.level

/-- Whether some message is an error. -/
def hasError (r : Report) : Bool :=
  r.toList.any fun m => m.severity == .error

theorem hasError_push (r : Report) (m : Message) :
    (r.push m).hasError = (r.hasError || m.severity == .error) := by
  simp [hasError]

theorem hasError_append (r s : Report) : (r ++ s).hasError = (r.hasError || s.hasError) := by
  simp [hasError]

/-- How many messages have a level. -/
def count (r : Report) (level : Level) : Nat :=
  r.toList.countP fun m => m.level == level

/-! ## Writing -/

/-- A report with one message on each line; without messages, its standing. -/
def written (r : Report) : String :=
  if r.isEmpty then s!"[{r.status.label}] "
  else String.join (r.toList.map fun m => m.written ++ "\n")

/-- A report for a terminal. -/
def shown (r : Report) : String :=
  String.join (r.toList.map Message.shown)

end Report

end MacroAsm
