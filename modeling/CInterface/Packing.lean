/-!
# Packing logs

A packing log records at which lines of a file the packing of structures changes.

* `PackingLog.record` — one more change.
* `PackingLog.packAt` — the packing in effect on a line.

Lines are counted from zero; no packing value means the default of the compiler.
-/

namespace CInterface

/-- The changes of packing in a file, in order. -/
structure PackingLog where
  /-- The lines of the changes with the packing from there on. -/
  entries : List (Nat × Option UInt32)
  deriving DecidableEq, Repr

namespace PackingLog

/-- The log of a file without changes: the default from the first line on. -/
def initial : PackingLog := ⟨[(0, none)]⟩

instance : Inhabited PackingLog := ⟨initial⟩

/-- The log with one more change. -/
def record (log : PackingLog) (line : Nat) (pack : Option UInt32) : PackingLog :=
  ⟨log.entries ++ [(line, pack)]⟩

/-- The packing in effect on a line: that of the last of the entries up to the first one for a later
line. -/
def packAt (log : PackingLog) (line : Nat) : Option UInt32 :=
  ((log.entries.takeWhile (·.1 ≤ line)).getLast?).bind (·.2)

end PackingLog

end CInterface
