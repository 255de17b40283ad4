import FerrisFS.Error
import Mathlib.Tactic.Common

/-!
# Paths

What the format uses of `std::path` on Unix: splitting a path string into
components, `parent`, `file_name` and the component-wise equality of paths, so
that a path is the list of its components.
-/

namespace FerrisFS

def slash : UInt8 := 47
def dot : UInt8 := 46

inductive Component where
  | rootDir
  | curDir
  | parentDir
  | normal (name : Str)
  deriving DecidableEq

namespace Path

/-- `path_component_bytes`. -/
def componentBytes : Component → Str
  | .rootDir => [slash]
  | .curDir => [dot]
  | .parentDir => [dot, dot]
  | .normal name => name

/-- One part between separators; empty parts and `.` are dropped. -/
def part (p : Str) : Option Component :=
  if p = [] ∨ p = [dot] then none
  else if p = [dot, dot] then some .parentDir
  else some (.normal p)

/-- `Path::components`: a leading separator is the root, and a `.` is kept only
as the first component of a relative path. -/
def components (path : Str) : List Component :=
  let parts := path.splitOn slash
  let body := parts.filterMap part
  if path.head? = some slash then .rootDir :: body
  else if parts.head? = some [dot] then .curDir :: body
  else body

/-- `Path::parent` and `Path::file_name` of a path that ends in a normal
component; the callers unwrap both, and on every other path one of them is
`None`. -/
def split (path : Str) : Option (List Component × Str) :=
  let comps := components path
  match comps.getLast? with
  | some (.normal name) => some (comps.dropLast, name)
  | _ => none

/-- The ranges of the continuation bytes a UTF-8 lead byte asks for. -/
def utf8Lead (b : Nat) : Option (List (Nat × Nat)) :=
  if b ≤ 0x7F then some []
  else if 0xC2 ≤ b ∧ b ≤ 0xDF then some [(0x80, 0xBF)]
  else if b = 0xE0 then some [(0xA0, 0xBF), (0x80, 0xBF)]
  else if b = 0xED then some [(0x80, 0x9F), (0x80, 0xBF)]
  else if 0xE1 ≤ b ∧ b ≤ 0xEF then some [(0x80, 0xBF), (0x80, 0xBF)]
  else if b = 0xF0 then some [(0x90, 0xBF), (0x80, 0xBF), (0x80, 0xBF)]
  else if 0xF1 ≤ b ∧ b ≤ 0xF3 then some [(0x80, 0xBF), (0x80, 0xBF), (0x80, 0xBF)]
  else if b = 0xF4 then some [(0x80, 0x8F), (0x80, 0xBF), (0x80, 0xBF)]
  else none

/-- `std::str::from_utf8(..).is_ok()`; the second argument is what the character
being read still needs. -/
def validUtf8 : Str → List (Nat × Nat) → Bool
  | [], pending => pending.isEmpty
  | b :: rest, (lo, hi) :: pending =>
    decide (lo ≤ b.toNat ∧ b.toNat ≤ hi) && validUtf8 rest pending
  | b :: rest, [] =>
    match utf8Lead b.toNat with
    | some pending => validUtf8 rest pending
    | none => false

/-- `progress.join(comp)`. -/
def join (progress : Str) (comp : Component) : Str :=
  if progress = [] then componentBytes comp else progress ++ slash :: componentBytes comp

end Path

end FerrisFS
