import CInterface.Registry.Json
import CInterface.Session.Options
/-!
# Cached results

A cache blob is the registry of a session together with the options that it was made with, so that a
later session with the same options can do without processing its headers.

* `CacheBlob.text`, `CacheBlob.ofText?` — a blob as JSON text, and back.
* `CacheBlob.isSupported`, `CacheBlob.isValidFor` — whether a blob may be used.
-/

namespace CInterface

open Json (ofMembers ofInt record? nat?)

/-- The registry of a session with what it was made with. -/
structure CacheBlob where
  /-- The version of the format. -/
  version : Nat
  options : SessionOptions
  /-- The time of writing, in seconds since the start of 1970. -/
  createdAt : Nat
  registry : Registry

namespace CacheBlob

/-- The version of the format that is written. -/
def currentVersion : Nat := 1

/-- The format of the blob is not older than the one that is written. -/
def isSupported (b : CacheBlob) : Bool := currentVersion ≤ b.version

/-- The blob was made with some options, and is not older than the newest header. -/
def isValidFor (b : CacheBlob) (options : SessionOptions) (newest : Nat) : Bool :=
  b.options == options && newest ≤ b.createdAt

/-- The document of a blob. -/
def toJson (b : CacheBlob) : Json :=
  ofMembers [("version", ofInt b.version), ("options", b.options.toJson),
    ("created_at", ofInt b.createdAt), ("registry", b.registry.toJson)]

/-- The blob that a document is. -/
def ofJson? : Nat → Json → Option CacheBlob
  | depth + 1, j => do
    let [some version, some options, some createdAt, some registry] ←
      record? ["version", "options", "created_at", "registry"] j | none
    return ⟨← nat? UInt32.size version, ← SessionOptions.ofJson? depth options,
      ← nat? UInt64.size createdAt, ← Registry.ofJson? depth registry⟩
  | _, _ => none

/-- The text of a blob. -/
def text (b : CacheBlob) : String := b.toJson.text

/-- The blob that a text is. -/
def ofText? (text : String) : Option CacheBlob := Json.decode? ofJson? text

end CacheBlob

end CInterface
