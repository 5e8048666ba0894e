import CInterface.Regex.Replace
import CInterface.Registry.Listing
import CInterface.Session.Processing
/-!
# Sessions that run

* `Regex.engine` — the regular expressions of this library, which cover the syntax in common use.
* `SessionSetup.build` — the session of a setup with these expressions.

What is proved of sessions is proved for every library of regular expressions. The one given here is
there to run them.
-/

namespace CInterface

/-- The regular expressions of this library. -/
def Regex.engine : RegexEngine where
  compile pattern := (Pattern.parse? pattern).map fun p text replacement =>
    String.ofList (p.replaceAll text.toList replacement.toList)

/-- The session, unless one of the patterns is no regular expression. -/
def SessionSetup.build (s : SessionSetup) : Except SessionError Session := s.buildWith Regex.engine

end CInterface
