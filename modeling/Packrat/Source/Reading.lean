import Packrat.Setup.Problem
import Packrat.Source.Basic

/-!
# Reading a source from a file

What a path leads to is up to the system.  It hands over the bytes of a file, or it
says in its own words why there are none.
-/

namespace Packrat

structure FileSystem where
  read : String → Except String ByteArray

namespace FileSystem

/-- The text of a file, which has to be encoded in UTF-8. -/
def readText (files : FileSystem) (path : String) : Except String String := do
  match String.fromUTF8? (← files.read path) with
  | some text => pure text
  | none => throw "stream did not contain valid UTF-8"

/-- A system without files. -/
def bare : FileSystem where
  read _ := .error "No such file or directory (os error 2)"

/-- A system with a single file. -/
def ofFile (name : String) (content : ByteArray) : FileSystem where
  read path := if path = name then .ok content else bare.read path

theorem readText_of_read {files : FileSystem} {path text : String}
    (hread : files.read path = .ok text.toByteArray) : files.readText path = .ok text := by
  have hdecode : String.fromUTF8? text.toByteArray = some text := by
    simp only [String.fromUTF8?, text.isValidUTF8, ↓reduceDIte]
    rfl
  simp only [readText, hread, bind, Except.bind, hdecode, pure, Except.pure]

end FileSystem

namespace Source

def ofPath (files : FileSystem) (path : String) : Except SetupProblem Source :=
  match files.readText path with
  | .ok text => .ok (.ofText text)
  | .error reason => .error (.unreadableSource path reason)

theorem ofPath_of_read {files : FileSystem} {path text : String}
    (hread : files.read path = .ok text.toByteArray) : ofPath files path = .ok (.ofText text) := by
  simp [ofPath, FileSystem.readText_of_read hread]

/-- What is written to a file is read back. -/
theorem ofPath_ofFile (name text : String) :
    ofPath (.ofFile name text.toByteArray) name = .ok (.ofText text) :=
  ofPath_of_read (if_pos rfl)

/-- Reading only fails with a problem that names the path. -/
theorem unreadable_of_ofPath {files : FileSystem} {path : String} {problem : SetupProblem}
    (hread : ofPath files path = .error problem) :
    ∃ reason, files.readText path = .error reason ∧ problem = .unreadableSource path reason := by
  simp only [ofPath] at hread
  split at hread
  case h_1 => cases hread
  case h_2 reason hreason => exact ⟨reason, hreason, (Except.error.inj hread).symm⟩

end Source

end Packrat
