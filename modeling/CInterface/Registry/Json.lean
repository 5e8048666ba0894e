import CInterface.Definition.Json
import CInterface.Packing
import CInterface.Registry
/-!
# Registries and packing logs in JSON

* `Registry.toJson`, `Registry.ofJson?` — a registry as a document, and back.
* `PackingLog.toJson`, `PackingLog.ofJson?` — the same for a packing log.
-/

namespace CInterface

open Json (ofMembers ofInt ofOption ofList ofMap ofUInt32 record? list? map? option? uint32?)

/-- The document of a registry. -/
def Registry.toJson (r : Registry) : Json :=
  ofMembers [("flat", r.flat.toJson), ("files", ofMap Definitions.toJson r.files)]

/-- The registry that a document is. -/
def Registry.ofJson? : Nat → Json → Option Registry
  | depth + 1, j => do
    let [some flat, some files] ← record? ["flat", "files"] j | none
    return ⟨← Definitions.ofJson? depth flat, ← map? Definitions.ofJson? depth files⟩
  | _, _ => none

/-- The document of a packing log: the pairs of lines and packings. -/
def PackingLog.toJson (log : PackingLog) : Json :=
  ofMembers [("entries", ofList
    (fun e => .array [ofInt e.1, ofOption ofUInt32 e.2]) log.entries)]

/-- A change of packing by its document. -/
def PackingLog.changeOfJson? : Nat → Json → Option (Nat × Option UInt32)
  | _ + 1, .array [line, pack] => do return (← line.nat? UInt64.size, ← option? uint32? pack)
  | _, _ => none

/-- The packing log that a document is. -/
def PackingLog.ofJson? : Nat → Json → Option PackingLog
  | depth + 1, j => do
    let [some entries] ← record? ["entries"] j | none
    return ⟨← list? changeOfJson? depth entries⟩
  | _, _ => none

end CInterface
